import UvrrCore.Promise.Kept

/-!
# Every handler keeps the promises

One lemma for each handler of normal operation, reconfiguration, transfer, reincarnation and
the host's inputs; the handlers of view changes have theirs beside the definitions. The lemma of
transferred chunks says `Promising` only, and what the chunk replaces.
-/

namespace UvrrCore

namespace Replica

variable {J : Type}

/-! ### Normal operation -/

section Normal

variable {r : Replica J} {kind : InputKind} {time : Nat}

/-- The record of a commit follows the replica: a bump comes from a serving node only. -/
theorem follows_recordWith {status : Status} {accepted committed applied : Nat}
    {config : EraTable} {view : Option Ballot}
    (hview : r.progress.status ≠ .normal → view = none)
    (hstatus : (status = r.progress.status) ∨
      (r.progress.status ≠ .viewChange ∧ (r.progress.status = .normal → status = .normal))) :
    r.Follows (r.recordWith status accepted committed applied config view) := by
  by_cases hserving : r.progress.status = .normal
  · right
    rw [hserving]
    refine ⟨by decide, fun _ => ?_⟩
    rcases hstatus with h | ⟨-, h⟩
    · exact h.trans hserving
    · exact h hserving
  · rcases hstatus with h | ⟨hfenced, -⟩
    · left
      refine ⟨?_, h⟩
      show view.getD _ = _
      rw [hview hserving]
      rfl
    · exact Or.inr ⟨hfenced, fun h => absurd h hserving⟩

/-- A plan on a `candidateWith` record that leaves the volatile state alone. -/
theorem commitPlan_kept (hr : r.Composed) {status : Status} {accepted committed applied : Nat}
    {config : EraTable} {view : Option Ballot} {candidate : Progress}
    {mutation : JournalMutation} {effects : List Effect} {completion : Bool}
    (hcandidate : r.candidateWith status accepted committed applied config view = .ok candidate)
    (hview : r.progress.status ≠ .normal → view = none)
    (hstatus : (status = r.progress.status) ∨
      (r.progress.status ≠ .viewChange ∧ (r.progress.status = .normal → status = .normal)))
    (hjournal : ∀ start suffix, mutation ≠ .installSuffix start suffix)
    (hfair : Fair r.progress.current candidate.current effects) :
    Kept r (r.candidatePlan candidate mutation effects kind completion) := by
  refine hr.kept rfl rfl ?_ hfair hjournal
  show r.Follows candidate.toProgressData
  rw [candidateWith_ok hcandidate]
  exact follows_recordWith hview hstatus

/-- Other bookkeeping than the view change and the overlap changes no promise. -/
theorem Kept.withBookkeeping {plan : PlannedTransition} (h : Kept r plan)
    {bookkeeping : Bookkeeping}
    (hview : bookkeeping.viewChange = plan.bookkeeping.viewChange)
    (hplanned : bookkeeping.planned = plan.bookkeeping.planned) :
    Kept r (plan.withBookkeeping bookkeeping) := h.of_eq rfl rfl hview hplanned id

theorem proposerRecord_ok {record : EraRecord} (h : r.proposerRecord = .ok record) :
    r.progress.status = .normal := by
  unfold proposerRecord at h
  split at h
  · cases h
  · simp only at h
    split at h
    · rename_i hserving
      exact hserving.1
    · cases h

/-- A message of the ballot the replica holds is a fair thing to send. -/
theorem sendAll_current {high : Ballot} {recipients : List Nat} {era : Nat} {message : Message}
    (hvote : message.vote = some r.progress.current) (hreport : message.report = none) :
    Fair r.progress.current high (sendAll recipients era message) := by
  refine Fair.of_current fun effect hmem => ?_
  obtain ⟨recipient, -, rfl⟩ := mem_sendAll hmem
  exact ⟨hvote, hreport⟩

theorem proposalPlan_kept (hr : r.Composed) {entries : List LogEntry} {last : Nat}
    {recipients : List Nat} {era : Nat} {message : Message} {planned : Update PlannedOverlap}
    {plan : PlannedTransition} (hserving : r.progress.status = .normal)
    (hvote : message.vote = some r.progress.current) (hreport : message.report = none)
    (h : r.proposalPlan entries last recipients era message planned kind = .ok plan) :
    Kept r plan := by
  obtain ⟨candidate, hcandidate, h⟩ := bind_eq_ok.mp h
  cases pure_eq_ok.mp h
  have hrecord := candidateWith_ok hcandidate
  refine ⟨⟨⟨fun attempt hv => ?_, fun _ => ?_⟩, sendAll_current hvote hreport⟩,
    fun start suffix hi => by cases hi⟩
  · have hnone := hr.no_attempt (by rw [hserving]; decide)
    have hv' : r.viewChange = some attempt := hv
    rw [hnone] at hv'
    cases hv'
  · show candidate.status = .normal
    rw [hrecord]
    exact hserving

theorem planPropose_kept (hr : r.Composed) {operation : Operation} {plan : PlannedTransition}
    (h : r.planPropose operation = .ok plan) : Kept r plan := by
  obtain ⟨record, hrecord, h⟩ := bind_eq_ok.mp h
  obtain ⟨slot, -, h⟩ := bind_eq_ok.mp h
  exact proposalPlan_kept hr (proposerRecord_ok hrecord) rfl rfl h

/-- An acknowledgement at the ballot held, and what the commit it carries applies. -/
theorem prepareOk_fair {high : Ballot} {sender slot : Nat} {applies : List Effect}
    (h : ∀ effect ∈ applies, effect.vote = none) :
    Fair r.progress.current high (prepareOk r.progress.current sender slot :: applies) := by
  refine Fair.cons (Fair.of_current fun effect hmem => ?_) (Fair.of_silent h)
  rw [List.mem_singleton.mp hmem]
  exact ⟨rfl, rfl⟩

/-- The solicitation votes for nothing and stays at a serving leader. -/
theorem overlapSolicitation_ok {config config' : EraTable} {covered : Nat}
    {effects : List Effect} {planned : Update PlannedOverlap}
    (h : r.overlapSolicitation config covered = .ok (config', effects, planned)) :
    ∀ effect ∈ effects, effect.vote = none := by
  unfold overlapSolicitation at h
  split at h
  · cases h
    simp
  · split at h
    · cases h
      simp
    · split at h
      · cases h
      · cases h
        exact sendAll_silent rfl

variable [Journal J]

theorem planHeldPrepare_kept (hr : r.Composed) {sender : Nat} {entry : LogEntry}
    {piggybacked : Nat} {status : Status} {plan : PlannedTransition}
    (hfenced : r.progress.status ≠ .viewChange)
    (hserving : r.progress.status = .normal → status = .normal)
    (h : r.planHeldPrepare sender entry piggybacked status kind = .ok plan) : Kept r plan := by
  simp only [planHeldPrepare] at h
  split at h
  · cases h
  · split at h
    · exact dropPlan_kept hr h
    · split at h
      · cases h
      · exact dropPlan_kept hr h
      · exact breachPlan_kept hr h
      · rename_i folded hfold
        obtain ⟨applied, -, h⟩ := bind_eq_ok.mp h
        obtain ⟨candidate, hcandidate, h⟩ := bind_eq_ok.mp h
        obtain ⟨applies, happlies, h⟩ := bind_eq_ok.mp h
        cases pure_eq_ok.mp h
        exact commitPlan_kept hr hcandidate (foldCommitted_bump hfold)
          (Or.inr ⟨hfenced, hserving⟩) (by simp) (prepareOk_fair (applyRange_silent happlies))

theorem planNextPrepare_kept (hr : r.Composed) {sender : Nat} {view : Ballot} {entry : LogEntry}
    {piggybacked : Nat} {status : Status} {plan : PlannedTransition}
    (hfenced : r.progress.status ≠ .viewChange)
    (hserving : r.progress.status = .normal → status = .normal)
    (h : r.planNextPrepare sender view entry piggybacked status kind = .ok plan) :
    Kept r plan := by
  simp only [planNextPrepare] at h
  split at h
  · cases h
  · exact dropPlan_kept hr h
  · split at h
    · exact dropPlan_kept hr h
    · exact breachPlan_kept hr h
  · rename_i folded hfold
    obtain ⟨refusal, -, h⟩ := bind_eq_ok.mp h
    split at h
    · exact dropPlan_kept hr h
    · split at h
      · exact dropPlan_kept hr h
      · obtain ⟨applied, -, h⟩ := bind_eq_ok.mp h
        obtain ⟨candidate, hcandidate, h⟩ := bind_eq_ok.mp h
        obtain ⟨applies, happlies, h⟩ := bind_eq_ok.mp h
        cases pure_eq_ok.mp h
        exact commitPlan_kept hr hcandidate (foldCommitted_bump hfold)
          (Or.inr ⟨hfenced, hserving⟩) (by simp) (prepareOk_fair (applyRange_silent happlies))

theorem planHigherViewSignal_kept (hr : r.Composed) {sender : Nat} {view : Ballot}
    {plan : PlannedTransition} (h : r.planHigherViewSignal sender view time kind = .ok plan) :
    Kept r plan := by
  obtain ⟨entered, hentered, h⟩ := bind_eq_ok.mp h
  have hkept := enterViewChange_kept hr hentered
  split at h
  · cases pure_eq_ok.mp h
    exact hkept.withFetch _ _ _
  · cases pure_eq_ok.mp h
    exact hkept

theorem planPrepare_kept (hr : r.Composed) {sender : Nat} {message : Message} {entry : LogEntry}
    {piggybacked : Nat} {plan : PlannedTransition}
    (h : r.planPrepare sender message entry piggybacked time kind = .ok plan) : Kept r plan := by
  cases planPrepare_cases h with
  | dropped _ hdrop => exact dropPlan_kept hr hdrop
  | signalled _ hsignal => exact planHigherViewSignal_kept hr hsignal
  | held _ hserving _ hheld => exact planHeldPrepare_kept hr hserving adoptedStatus_normal hheld
  | gap next drop hdrop hplan =>
    subst hplan
    exact (dropPlan_kept hr hdrop).withFetch _ _ _
  | next _ hserving _ hnext => exact planNextPrepare_kept hr hserving adoptedStatus_normal hnext

theorem commitBatchEffects_silent (through rounds slot : Nat) :
    ∀ effect ∈ r.commitBatchEffects through rounds slot, effect.vote = none := by
  induction rounds generalizing slot with
  | zero => simp [commitBatchEffects]
  | succ rounds ih =>
    intro effect hmem
    simp only [commitBatchEffects] at hmem
    split at hmem
    · cases hmem
    · split at hmem
      · cases hmem
      · split at hmem
        · exact ih _ effect hmem
        · rcases List.mem_append.mp hmem with hmem | hmem
          · split at hmem
            · exact sendAll_silent rfl effect hmem
            · cases hmem
          · exact ih _ effect hmem

theorem finishCommitQuorum_kept (hr : r.Composed) (hserving : r.progress.status = .normal)
    {committed : Nat} {oks : List (Nat × Nat)} {plan : PlannedTransition}
    (h : r.finishCommitQuorum committed oks kind = .ok plan) : Kept r plan := by
  simp only [finishCommitQuorum] at h
  split at h
  · obtain ⟨emitted, hemitted, h⟩ := bind_eq_ok.mp h
    cases pure_eq_ok.mp h
    have hkept := emitPlan_kept hr hemitted Fair.nil
    obtain ⟨candidate, -, rfl⟩ := emitPlan_ok hemitted
    exact hkept.withBookkeeping rfl rfl
  · split at h
    · cases h
    · exact dropPlan_kept hr h
    · exact breachPlan_kept hr h
    · obtain ⟨⟨config, solicitation, planned⟩, hsolicit, h⟩ := bind_eq_ok.mp h
      obtain ⟨applied, -, h⟩ := bind_eq_ok.mp h
      obtain ⟨candidate, hcandidate, h⟩ := bind_eq_ok.mp h
      obtain ⟨applies, happlies, h⟩ := bind_eq_ok.mp h
      cases pure_eq_ok.mp h
      refine ⟨⟨⟨fun attempt hv => ?_, fun _ => ?_⟩, ?_⟩, fun start suffix hi => by cases hi⟩
      · have hv' : r.viewChange = some attempt := hv
        rw [hr.no_attempt (by rw [hserving]; decide)] at hv'
        cases hv'
      · show candidate.status = .normal
        rw [candidateWith_ok hcandidate]
        rfl
      · exact (((Fair.of_silent (applyRange_silent happlies)).append
          (Fair.of_silent (sendAll_silent rfl))).append
            (Fair.of_silent (commitBatchEffects_silent _ _ _))).append
              (Fair.of_silent (overlapSolicitation_ok hsolicit))

theorem countVote_kept (hr : r.Composed) (hserving : r.progress.status = .normal)
    {sender slot : Nat} {unknown learner foreign duplicate : Diagnostic}
    {plan : PlannedTransition}
    (h : r.countVote sender slot unknown learner foreign duplicate kind = .ok plan) :
    Kept r plan := by
  simp only [countVote] at h
  split at h
  · exact dropPlan_kept hr h
  · obtain ⟨finished, hfinished, h⟩ := bind_eq_ok.mp h
    cases pure_eq_ok.mp h
    exact (finishCommitQuorum_kept hr hserving hfinished).withDiagnostic _
  · split at h
    · exact dropPlan_kept hr h
    · split at h
      · exact dropPlan_kept hr h
      · exact finishCommitQuorum_kept hr hserving h

theorem planPrepareOk_kept (hr : r.Composed) {sender : Nat} {message : Message}
    {plan : PlannedTransition} (h : r.planPrepareOk sender message kind = .ok plan) :
    Kept r plan := by
  simp only [planPrepareOk] at h
  split at h
  · exact dropPlan_kept hr h
  · rename_i hleader
    split at h
    · exact dropPlan_kept hr h
    · exact countVote_kept hr (isLeader_normal (by simpa using hleader)) h

theorem planFuseOk_kept (hr : r.Composed) {sender : Nat} {message : Message}
    {plan : PlannedTransition} (h : r.planFuseOk sender message kind = .ok plan) :
    Kept r plan := by
  simp only [planFuseOk] at h
  split at h
  · exact dropPlan_kept hr h
  · rename_i hleader
    split at h
    · exact dropPlan_kept hr h
    · exact countVote_kept hr (isLeader_normal (by simpa using hleader)) h

theorem planCommit_kept (hr : r.Composed) {sender : Nat} {message : Message} {frontier : Nat}
    {plan : PlannedTransition}
    (h : r.planCommit sender message frontier time kind = .ok plan) : Kept r plan := by
  cases planCommit_cases h with
  | dropped _ hdrop => exact dropPlan_kept hr hdrop
  | breached hbreach => exact breachPlan_kept hr hbreach
  | signalled _ hsignal => exact planHigherViewSignal_kept hr hsignal
  | steady hemit => exact emitPlan_kept hr hemit Fair.nil
  | learned _ hserving folded applied candidate applies hfold _ hcandidate happlies hplan =>
    subst hplan
    exact commitPlan_kept hr hcandidate (foldCommitted_bump hfold)
      (Or.inr ⟨hserving, adoptedStatus_normal⟩) (by simp)
      (Fair.of_silent (applyRange_silent happlies))

end Normal

/-! ### Reconfiguration -/

section Reconfiguration

variable [Journal J] {r : Replica J} {kind : InputKind} {time : Nat}

theorem planReconfigure_kept (hr : r.Composed) {op : SystemOperation} {pivot : Option Pivot}
    {plan : PlannedTransition} (h : r.planReconfigure op pivot = .ok plan) : Kept r plan := by
  obtain ⟨record, hrecord, h⟩ := bind_eq_ok.mp h
  obtain ⟨slot, -, h⟩ := bind_eq_ok.mp h
  obtain ⟨table, -, h⟩ := bind_eq_ok.mp h
  obtain ⟨⟨recipients, planned⟩, -, h⟩ := bind_eq_ok.mp h
  exact proposalPlan_kept hr (proposerRecord_ok hrecord) rfl rfl h

theorem planFuseBatch_kept (hr : r.Composed) {ops : List SystemOperation}
    {plan : PlannedTransition} (h : r.planFuseBatch ops = .ok plan) : Kept r plan := by
  obtain ⟨record, hrecord, h⟩ := bind_eq_ok.mp h
  obtain ⟨firstSlot, -, h⟩ := bind_eq_ok.mp h
  obtain ⟨table, -, h⟩ := bind_eq_ok.mp h
  obtain ⟨eras, -, h⟩ := bind_eq_ok.mp h
  obtain ⟨entries, -, h⟩ := bind_eq_ok.mp h
  split at h
  · cases h
  · exact proposalPlan_kept hr (proposerRecord_ok hrecord) rfl rfl h

theorem planStepProposal_kept (hr : r.Composed) {batch : SystemOperation}
    {plan : PlannedTransition} (h : r.planStepProposal batch = .ok plan) : Kept r plan := by
  unfold planStepProposal at h
  split at h
  · split at h
    · exact planFuseBatch_kept hr h
    · exact planReconfigure_kept hr h
  · exact planReconfigure_kept hr h

theorem planFuse_kept (hr : r.Composed) {sender : Nat} {message : Message}
    {ops : List SystemOperation} {plan : PlannedTransition}
    (h : r.planFuse sender message ops time kind = .ok plan) : Kept r plan := by
  cases planFuse_cases h with
  | dropped _ hdrop => exact dropPlan_kept hr hdrop
  | signalled _ hsignal => exact planHigherViewSignal_kept hr hsignal
  | next _ hserving eras current entries last candidate _ _ _ hcandidate hplan =>
    subst hplan
    refine commitPlan_kept hr hcandidate (fun _ => rfl)
      (Or.inr ⟨hserving, adoptedStatus_normal⟩) (by simp) ?_
    refine Fair.of_current fun effect hmem => ?_
    rw [List.mem_singleton.mp hmem]
    exact ⟨rfl, rfl⟩

theorem planPlannedViewChange_kept (hr : r.Composed) {sender : Nat} {message : Message}
    {plan : PlannedTransition} (h : r.planPlannedViewChange sender message kind = .ok plan) :
    Kept r plan := by
  simp only [planPlannedViewChange] at h
  split at h
  · split at h
    · exact dropPlan_kept hr h
    · exact dropPlan_kept hr h
  · split at h
    · exact dropPlan_kept hr h
    · split at h
      · exact dropPlan_kept hr h
      · obtain ⟨proof, -, h⟩ := bind_eq_ok.mp h
        obtain ⟨emitted, hemitted, h⟩ := bind_eq_ok.mp h
        have hkept := emitPlan_kept hr hemitted
          (Fair.of_silent (by simp [Effect.vote, Message.vote]))
        split at h
        · cases pure_eq_ok.mp h
          exact hkept.withFetch _ _ _
        · cases pure_eq_ok.mp h
          exact hkept

theorem planPlannedSwitch_kept (hr : r.Composed) {target : Ballot} {plan : PlannedTransition}
    (hserving : r.progress.status = .normal)
    (h : r.planPlannedSwitch target time kind = .ok plan) : Kept r plan := by
  obtain ⟨candidate, hcandidate, h⟩ := bind_eq_ok.mp h
  obtain ⟨proof, -, h⟩ := bind_eq_ok.mp h
  cases pure_eq_ok.mp h
  refine ⟨⟨⟨fun attempt hv => ?_, fun hp => (by cases hp)⟩,
    Fair.of_silent (sendAll_silent rfl)⟩, fun start suffix hi => by cases hi⟩
  have hv' : r.viewChange = some attempt := hv
  rw [hr.no_attempt (by rw [hserving]; decide)] at hv'
  cases hv'

theorem planPlannedEvidence_kept (hr : r.Composed) {sender : Nat} {message : Message}
    {evidence : Evidence} {proof : EraProof} {plan : PlannedTransition}
    (h : r.planPlannedEvidence sender message evidence proof time kind = .ok plan) :
    Kept r plan := by
  simp only [planPlannedEvidence] at h
  split at h
  · exact dropPlan_kept hr h
  · rename_i planned hplanned
    have hserving : r.progress.status = .normal := hr.overlap (by rw [hplanned]; rfl)
    split at h
    · exact dropPlan_kept hr h
    · split at h
      · exact dropPlan_kept hr h
      · split at h
        · cases h
        · split at h
          · exact dropPlan_kept hr h
          · split at h
            · exact planPlannedSwitch_kept hr hserving h
            · obtain ⟨emitted, hemitted, h⟩ := bind_eq_ok.mp h
              cases pure_eq_ok.mp h
              obtain ⟨candidate, hsame, rfl⟩ := emitPlan_ok hemitted
              refine ⟨⟨⟨fun attempt hv => ?_, fun _ => ?_⟩, Fair.nil⟩,
                fun start suffix hi => by cases hi⟩
              · have hv' : r.viewChange = some attempt := hv
                rw [hr.no_attempt (by rw [hserving]; decide)] at hv'
                cases hv'
              · show candidate.status = .normal
                rw [hsame]
                exact hserving

theorem planDoViewChange_kept (hr : r.Composed) {sender : Nat} {message : Message}
    {evidence : Evidence} {evidenceKind : EvidenceKind} {proof : EraProof}
    {plan : PlannedTransition}
    (h : r.planDoViewChange sender message evidence evidenceKind proof time kind = .ok plan) :
    Kept r plan := by
  cases evidenceKind with
  | planned => exact planPlannedEvidence_kept hr h
  | ordinary => exact planOrdinaryEvidence_kept hr h

end Reconfiguration

/-! ### Transfer -/

section Transfer

variable [Journal J] {r : Replica J} {kind : InputKind} {time : Nat}

theorem planGetState_kept (hr : r.Composed) {sender : Nat} {message : Message} {start : Nat}
    {plan : PlannedTransition} (h : r.planGetState sender message start kind = .ok plan) :
    Kept r plan := by
  simp only [planGetState] at h
  split at h
  · exact dropPlan_kept hr h
  · split at h
    · exact dropPlan_kept hr h
    · exact dropPlan_kept hr h
    · exact dropPlan_kept hr h
    all_goals
      split at h
      · exact dropPlan_kept hr h
      · exact emitPlan_kept hr h (Fair.of_silent (by simp [Effect.vote, Message.vote]))

theorem chunkCursor_silent (view : Ballot) (sender accepted : Nat) (onward : Bool) :
    ∀ effect ∈ (chunkCursor view sender accepted onward).1, effect.vote = none := by
  unfold chunkCursor
  split
  · split
    · simp [fetch_silent]
    · simp
  · simp

/-- A chunk moves a node's ballot only from its boot fence, or by a committed nomination. -/
theorem installChunk_promising (hr : r.Composed) {sender : Nat} {view : Ballot}
    {entries : List LogEntry} {through : Nat} {more : Bool} {folded : FoldedCommit}
    {mutation : JournalMutation} {plan : PlannedTransition}
    (hbump : r.progress.status ≠ .normal → folded.bump = none)
    (h : r.installChunk sender view entries through more folded mutation kind = .ok plan) :
    Promising r plan ∧ plan.journal = mutation := by
  obtain ⟨applies, happlies, h⟩ := bind_eq_ok.mp h
  obtain ⟨walkedView, hwalked, h⟩ := bind_eq_ok.mp h
  obtain ⟨applied, -, h⟩ := bind_eq_ok.mp h
  obtain ⟨candidate, hcandidate, h⟩ := bind_eq_ok.mp h
  cases pure_eq_ok.mp h
  have hfollows : r.Follows candidate.toProgressData := by
    unfold chunkCandidate at hcandidate
    split at hcandidate
    · have hacquires : r.bootAcquisition view = true := by
        unfold walkTarget at hwalked
        split at hwalked
        · rename_i hw
          simp only [Bool.and_eq_true] at hw
          exact hw.1.1
        · cases hwalked
      unfold bootAcquisition at hacquires
      rw [Bool.and_eq_true] at hacquires
      have hboot := isBoot_ne (bootFenced_isBoot hacquires.2)
      rw [walkedCandidate_ok hcandidate]
      exact Or.inr ⟨hboot.2, fun hserving => absurd hserving hboot.1⟩
    · rw [candidateWith_ok hcandidate]
      refine follows_recordWith (fun hserving => ?_) (Or.inl rfl)
      split
      · rfl
      · exact hbump hserving
  refine ⟨⟨hr.follows hfollows, ?_⟩, rfl⟩
  refine (Fair.of_silent ?_).append (Fair.of_silent (chunkCursor_silent _ _ _ _))
  unfold chunkApplies at happlies
  split at happlies
  · exact applyRange_silent happlies
  · cases happlies
    simp

/-- A chunk's promises, and that what it replaces at a serving replica passed the suffix
check. -/
theorem planNewState_promising (hr : r.Composed) {sender : Nat} {message : Message}
    {entries : List LogEntry} {through committed : Nat} {more : Bool} {plan : PlannedTransition}
    (h : r.planNewState sender message entries through committed more kind = .ok plan) :
    Promising r plan ∧ (r.progress.status = .normal →
      plan.journal = .none ∨
        (r.progress.accepted < through ∧
          r.checkSuffix entries through committed Slot.none = .install plan.journal)) := by
  have hkept : ∀ {p : PlannedTransition}, Kept r p → p.journal = .none →
      Promising r p ∧ (r.progress.status = .normal → p.journal = .none ∨
        (r.progress.accepted < through ∧
          r.checkSuffix entries through committed Slot.none = .install p.journal)) :=
    fun hk hj => ⟨hk.toPromising, fun _ => Or.inl hj⟩
  cases planNewState_cases h with
  | dropped _ hdrop =>
    have hk := dropPlan_kept hr hdrop
    obtain ⟨candidate, -, rfl⟩ := dropPlan_ok hdrop
    exact hkept hk rfl
  | breached hbreach =>
    have hk := breachPlan_kept hr hbreach
    obtain ⟨candidate, -, rfl⟩ := breachPlan_ok hbreach
    exact hkept hk rfl
  | closed emitted hemit hplan =>
    subst hplan
    have hk := emitPlan_kept hr hemit Fair.nil
    obtain ⟨candidate, -, rfl⟩ := emitPlan_ok hemit
    exact hkept (hk.withBookkeeping rfl rfl) rfl
  | installed record _ _ _ _ _ hahead whole hwhole folded hfold mutation hverdict hinstall =>
    obtain ⟨hpromising, hjournal⟩ := installChunk_promising hr (foldCommitted_bump hfold) hinstall
    refine ⟨hpromising, fun hserving => Or.inr ⟨hahead, ?_⟩⟩
    -- a serving replica is at no boot fence: the whole chunk is installed
    rcases chunkVerdict_install hverdict with ⟨-, rfl⟩ | ⟨hacquires, -, -⟩
    · rw [hjournal, hwhole]
    · simp [bootAcquisition, bootFenced, hserving, Status.isBoot] at hacquires

end Transfer

/-! ### Plans and reincarnation -/

section Driving

variable {r : Replica J} {kind : InputKind} {time : Nat}

theorem missedRangePush_silent [Journal J] {view : Ballot} {recipient prepared : Nat}
    {effect : Effect} (h : r.missedRangePush view recipient prepared = some effect) :
    effect.vote = none := by
  unfold missedRangePush at h
  simp only at h
  split at h
  · cases h
  · split at h
    · cases h
    · rw [← Option.some.inj h]
      rfl

theorem missedRange_fair [Journal J] {low high : Ballot} (view : Ballot)
    (recipient prepared : Nat) :
    Fair low high (r.missedRangePush view recipient prepared).toList := by
  refine Fair.of_silent fun effect hmem => ?_
  rw [Option.mem_toList] at hmem
  exact missedRangePush_silent hmem

theorem establishingPrepare_mem {effects : List Effect} {message : Message}
    (h : establishingPrepare effects = some message) :
    ∃ recipient era, Effect.send recipient era message ∈ effects := by
  induction effects with
  | nil => cases h
  | cons effect rest ih =>
    have hrest : establishingPrepare rest = some message →
        ∃ recipient era, Effect.send recipient era message ∈ effect :: rest := by
      intro h
      obtain ⟨recipient, era, hmem⟩ := ih h
      exact ⟨recipient, era, List.mem_cons_of_mem _ hmem⟩
    cases effect with
    | send recipient era other =>
      unfold establishingPrepare at h
      split at h
      · rw [← Option.some.inj h]
        exact ⟨recipient, era, List.mem_cons_self⟩
      · exact hrest h
    | _ => exact hrest h

/-- A copy of a message the plan sends anyway. -/
theorem fair_copy {low high : Ballot} {effects : List Effect} (hfair : Fair low high effects)
    (recipient era : Nat) :
    Fair low high ((establishingPrepare effects).map fun establishing =>
      Effect.send recipient era establishing).toList := by
  refine ⟨fun effect hmem ballot hv => ?_, fun effect hmem ballot hv => ?_⟩
  · rw [Option.mem_toList, Option.map_eq_some_iff] at hmem
    obtain ⟨message, hmessage, rfl⟩ := hmem
    obtain ⟨other, era', hin⟩ := establishingPrepare_mem hmessage
    exact hfair.votes _ hin ballot hv
  · rw [Option.mem_toList, Option.map_eq_some_iff] at hmem
    obtain ⟨message, hmessage, rfl⟩ := hmem
    obtain ⟨other, era', hin⟩ := establishingPrepare_mem hmessage
    exact hfair.reports _ hin ballot hv

variable [Journal J]

theorem planSubmitPlan_kept (hr : r.Composed) {submitted : Plan} {plan : PlannedTransition}
    (h : r.planSubmitPlan submitted kind = .ok plan) : Kept r plan := by
  have hanswer : ∀ {verdict : PlanVerdict} {p : PlannedTransition},
      r.adminVerdict verdict kind = .ok p → Kept r p := fun hp =>
    emitPlan_kept hr hp (Fair.of_silent (by simp [Effect.vote]))
  simp only [planSubmitPlan] at h
  split at h
  · exact hanswer h
  · split at h
    · exact hanswer h
    · split at h
      · exact hanswer h
      · split at h
        · obtain ⟨proposal, hproposal, h⟩ := bind_eq_ok.mp h
          cases pure_eq_ok.mp h
          exact ((planStepProposal_kept hr hproposal).withAdminResponse _).withPlanExecution _
        · obtain ⟨answer, hanswered, h⟩ := bind_eq_ok.mp h
          cases pure_eq_ok.mp h
          exact (hanswer hanswered).withPlanExecution _

theorem planExecutionContinuation_kept (hr : r.Composed) {planned : Planned}
    {plan : PlannedTransition} (hsome : r.planExecutionContinuation = some planned)
    (h : planned = .ok plan) : Kept r plan := by
  simp only [planExecutionContinuation] at hsome
  split at hsome
  · cases hsome
  · split at hsome
    · cases hsome
    · split at hsome
      · rw [← Option.some.inj hsome] at h
        cases h
      · split at hsome
        · rw [← Option.some.inj hsome] at h
          obtain ⟨drop, hdrop, h⟩ := bind_eq_ok.mp h
          cases pure_eq_ok.mp h
          exact (dropPlan_kept hr hdrop).withPlanExecution _
        · split at hsome
          · rw [← Option.some.inj hsome] at h
            obtain ⟨proposal, hproposal, h⟩ := bind_eq_ok.mp h
            cases pure_eq_ok.mp h
            exact (planStepProposal_kept hr hproposal).withPlanExecution _
          · cases hsome

theorem planReincarnation_kept (hr : r.Composed) {sender : Nat} {message : Message}
    {plan : PlannedTransition} (h : r.planReincarnation sender message kind = .ok plan) :
    Kept r plan := by
  have hdrop : ∀ {p : PlannedTransition} {update : Update ForcedSequence} {ack : List Effect},
      r.dropPlan .none kind = .ok p →
      Fair r.progress.current p.candidate.current ack →
      Kept r { p.withReincarnation update with effects := p.effects ++ ack } :=
    fun hp hack => ((dropPlan_kept hr hp).withReincarnation _).of_eq rfl rfl rfl rfl
      fun hfair => hfair.append hack
  simp only [planReincarnation] at h
  split at h
  · split at h
    · exact dropPlan_kept hr h
    · split at h
      · cases h
      · split at h
        · obtain ⟨drop, hdropped, h⟩ := bind_eq_ok.mp h
          cases pure_eq_ok.mp h
          exact hdrop hdropped (missedRange_fair _ _ _)
        · split at h
          · obtain ⟨proposal, hproposal, h⟩ := bind_eq_ok.mp h
            cases pure_eq_ok.mp h
            exact ((planReconfigure_kept hr hproposal).withReincarnation _).of_eq rfl rfl rfl rfl
              fun hfair => ((missedRange_fair _ _ _).append hfair).append (fair_copy hfair _ _)
          · obtain ⟨drop, hdropped, h⟩ := bind_eq_ok.mp h
            cases pure_eq_ok.mp h
            exact hdrop hdropped (missedRange_fair _ _ _)
  · exact dropPlan_kept hr h

theorem planGossipRequest_kept (hr : r.Composed) {sender : Nat} {message : Message}
    {plan : PlannedTransition} (h : r.planGossipRequest sender message kind = .ok plan) :
    Kept r plan := by
  simp only [planGossipRequest] at h
  split at h
  · split at h
    · exact dropPlan_kept hr h
    · obtain ⟨drop, hdrop, h⟩ := bind_eq_ok.mp h
      cases pure_eq_ok.mp h
      exact (dropPlan_kept hr hdrop).of_eq rfl rfl rfl rfl fun hfair =>
        (hfair.append (missedRange_fair _ _ _)).append
          (Fair.of_silent (by simp [Effect.vote, Message.vote]))
  · exact dropPlan_kept hr h

theorem planForcedContinuation_kept (hr : r.Composed) {planned : Planned}
    {plan : PlannedTransition} (hsome : r.planForcedContinuation = some planned)
    (h : planned = .ok plan) : Kept r plan := by
  simp only [planForcedContinuation] at hsome
  split at hsome
  · cases hsome
  · split at hsome
    · cases hsome
    · split at hsome
      · split at hsome
        · rename_i emitted hemitted
          rw [← Option.some.inj hsome] at h
          cases h
          exact (emitPlan_kept hr hemitted Fair.nil).withReincarnation _
        · cases hsome
      · split at hsome
        · rw [← Option.some.inj hsome] at h
          obtain ⟨proposal, hproposal, h⟩ := bind_eq_ok.mp h
          cases pure_eq_ok.mp h
          exact (planReconfigure_kept hr hproposal).withReincarnation _
        · cases hsome

theorem planReincarnate_kept (hr : r.Composed) {old : Nat} {plan : PlannedTransition}
    (h : r.planReincarnate old kind = .ok plan) : Kept r plan := by
  rcases planReincarnate_ok h with hdrop | ⟨announcement, -, hbody, -, ⟨-, hled⟩ | ⟨-, hsent⟩⟩
  · exact dropPlan_kept hr hdrop
  · exact planReincarnation_kept hr hled
  · refine emitPlan_kept hr hsent (Fair.of_silent (sendAll_silent ?_))
    simp only [Message.vote, hbody]

end Driving

/-! ### The host's inputs -/

section Host

variable {r : Replica J} {kind : InputKind} {time : Nat}

theorem refetch_kept (hr : r.Composed) {planned : Planned} {plan : PlannedTransition}
    (hsome : r.refetch = some planned) (h : planned = .ok plan) : Kept r plan := by
  simp only [refetch] at hsome
  split at hsome
  · cases hsome
  · rw [← Option.some.inj hsome] at h
    obtain ⟨emitted, hemitted, h⟩ := bind_eq_ok.mp h
    cases pure_eq_ok.mp h
    have hkept := emitPlan_kept hr hemitted (Fair.of_silent (by simp [fetch_silent]))
    obtain ⟨candidate, -, rfl⟩ := emitPlan_ok hemitted
    exact hkept.withBookkeeping rfl rfl

theorem planCheckpointed_kept (hr : r.Composed) {through : Nat} {plan : PlannedTransition}
    (h : r.planCheckpointed through = .ok plan) : Kept r plan := by
  simp only [planCheckpointed] at h
  split at h
  · cases h
  · split at h
    · exact emitPlan_kept hr h Fair.nil
    · obtain ⟨candidate, hcandidate, h⟩ := bind_eq_ok.mp h
      cases pure_eq_ok.mp h
      have hrecord := asCandidate_eq_ok.mp hcandidate
      unfold Progress.withCheckpoint at hrecord
      split at hrecord
      · cases hrecord
      · split at hrecord
        · cases hrecord
        · have hdata := (Progress.transition_data hrecord).1
          refine hr.kept rfl rfl (Or.inl ?_) Fair.nil (by simp [candidatePlan])
          show candidate.current = _ ∧ candidate.status = _
          rw [hdata]
          exact ⟨rfl, rfl⟩

variable [Journal J]

theorem redriveOffer_kept (hr : r.Composed) {planned : Planned} {plan : PlannedTransition}
    (hsome : r.redriveOffer time = some planned) (h : planned = .ok plan) : Kept r plan := by
  simp only [redriveOffer] at hsome
  split at hsome
  · cases hsome
  · split at hsome
    · split at hsome
      · rw [← Option.some.inj hsome] at h
        exact planStartView_kept hr h
      · cases hsome
    · cases hsome

theorem redriveWin_kept (hr : r.Composed) {planned : Planned} {plan : PlannedTransition}
    (hsome : r.redriveWin time = some planned) (h : planned = .ok plan) : Kept r plan := by
  simp only [redriveWin] at hsome
  split at hsome
  · rename_i attempt _ hopen
    split at hsome
    · cases hsome
    · split at hsome
      · rw [← Option.some.inj hsome] at h
        exact continueOpen_kept hr hopen rfl h
      · cases hsome
  · cases hsome

theorem promotable_isBoot (h : r.promotable = true) : r.progress.status.isBoot = true := by
  unfold promotable at h
  simp only [Bool.and_eq_true] at h
  exact bootFenced_isBoot h.1.1.1.1.1.1

theorem planTick_kept (hr : r.Composed) {plan : PlannedTransition}
    (h : r.planTick time = .ok plan) : Kept r plan := by
  unfold planTick at h
  split at h
  · rename_i hpromotable
    obtain ⟨candidate, hcandidate, h⟩ := bind_eq_ok.mp h
    cases pure_eq_ok.mp h
    have hrecord := (Progress.transition_data (asCandidate_eq_ok.mp hcandidate)).1
    have hboot := isBoot_ne (promotable_isBoot hpromotable)
    have hkept : Kept r (r.candidatePlan candidate .none
        (r.broadcastCommit r.progress.committed) .tick false) :=
      hr.kept rfl rfl (Or.inr ⟨hboot.2, fun h => absurd h hboot.1⟩)
        (Fair.of_silent (sendAll_silent rfl)) (by simp [candidatePlan])
    exact hkept.withActivity _
  · split at h
    · split at h
      · cases h
      · exact enterViewChange_kept hr h
    · split at h
      · rename_i planned hoffer
        exact redriveOffer_kept hr hoffer h
      · split at h
        · rename_i planned hwin
          exact redriveWin_kept hr hwin h
        · split at h
          · rename_i planned hfetch
            exact refetch_kept hr hfetch h
          · split at h
            · rename_i planned hforced
              exact planForcedContinuation_kept hr hforced h
            · split at h
              · rename_i planned hexecution
                exact planExecutionContinuation_kept hr hexecution h
              · exact emitPlan_kept hr h Fair.nil

theorem planApplied_kept (hr : r.Composed) {slot : Nat} {plan : PlannedTransition}
    (h : r.planApplied slot = .ok plan) : Kept r plan := by
  obtain ⟨expected, -, h⟩ := bind_eq_ok.mp h
  split at h
  · cases h
  · obtain ⟨applied, -, h⟩ := bind_eq_ok.mp h
    obtain ⟨candidate, hcandidate, h⟩ := bind_eq_ok.mp h
    cases pure_eq_ok.mp h
    refine (commitPlan_kept hr hcandidate (fun _ => rfl) ?_ (by simp) Fair.nil).withBookkeeping
      rfl rfl
    unfold appliedStatus
    split
    · rename_i hreplaying
      right
      rw [hreplaying.1]
      decide
    · exact Or.inl rfl

/-! ### Dispatch -/

/-- Every message but a transferred chunk is answered by a handler that keeps the promises. -/
theorem planBody_kept (hr : r.Composed) {sender : Nat} {message : Message}
    {plan : PlannedTransition} (hchunk : message.tag ≠ .newState)
    (h : r.planBody sender message time kind = .ok plan) : Kept r plan := by
  unfold planBody at h
  unfold Message.tag at hchunk
  have hwitness : ∀ {p : PlannedTransition}, Kept r p →
      Kept r (r.withJoinGossipWitness p sender) := by
    intro p hp
    unfold withJoinGossipWitness
    split
    · exact hp
    · exact hp.withWitness _
  cases hbody : message.body with
  | prepare => rw [hbody] at h; exact planPrepare_kept hr h
  | prepareOk => rw [hbody] at h; exact planPrepareOk_kept hr h
  | commit => rw [hbody] at h; exact planCommit_kept hr h
  | startViewChange => rw [hbody] at h; exact planStartViewChange_kept hr h
  | doViewChange => rw [hbody] at h; exact planDoViewChange_kept hr h
  | startView => rw [hbody] at h; exact planStartView_kept hr h
  | plannedViewChange => rw [hbody] at h; exact planPlannedViewChange_kept hr h
  | getState => rw [hbody] at h; exact planGetState_kept hr h
  | newState => rw [hbody] at hchunk; exact absurd rfl hchunk
  | reincarnation =>
    rw [hbody] at h
    obtain ⟨p, hp, h⟩ := bind_eq_ok.mp h
    cases pure_eq_ok.mp h
    exact hwitness (planReincarnation_kept hr hp)
  | gossipRequest =>
    rw [hbody] at h
    obtain ⟨p, hp, h⟩ := bind_eq_ok.mp h
    cases pure_eq_ok.mp h
    exact hwitness (planGossipRequest_kept hr hp)
  | fuse => rw [hbody] at h; exact planFuse_kept hr h
  | fuseOk => rw [hbody] at h; exact planFuseOk_kept hr h
  | commitBatch => rw [hbody] at h; exact dropPlan_kept hr h

theorem planPeer_kept (hr : r.Composed) {sender : Nat} {message : Message}
    {plan : PlannedTransition} (hchunk : message.tag ≠ .newState)
    (h : r.planPeer sender message time kind = .ok plan) : Kept r plan := by
  unfold planPeer at h
  split at h
  · exact dropPlan_kept hr h
  · obtain ⟨p, hp, h⟩ := bind_eq_ok.mp h
    cases pure_eq_ok.mp h
    have hkept := planBody_kept hr hchunk hp
    split
    · exact hkept.withActivity _
    · exact hkept

/-- A chunk at the dispatch: the promises, and what it replaces at a serving replica. -/
theorem planPeer_newState (hr : r.Composed) {sender : Nat} {message : Message}
    {entries : List LogEntry} {through committed : Nat} {more : Bool} {plan : PlannedTransition}
    (hbody : message.body = .newState entries through committed more)
    (h : r.planPeer sender message time kind = .ok plan) :
    Promising r plan ∧ (r.progress.status = .normal →
      plan.journal = .none ∨
        (r.progress.accepted < through ∧
          r.checkSuffix entries through committed Slot.none = .install plan.journal)) := by
  unfold planPeer at h
  split at h
  · obtain ⟨candidate, -, rfl⟩ := dropPlan_ok h
    exact ⟨(dropPlan_kept hr h).toPromising, fun _ => Or.inl rfl⟩
  · obtain ⟨p, hp, h⟩ := bind_eq_ok.mp h
    cases pure_eq_ok.mp h
    unfold planBody at hp
    rw [hbody] at hp
    obtain ⟨hpromising, hserving⟩ := planNewState_promising hr hp
    split
    · exact ⟨⟨hpromising.composed, hpromising.fair⟩, hserving⟩
    · exact ⟨hpromising, hserving⟩

/-- **Every plan of a fresh input is kept**, a transferred chunk's apart. -/
theorem plan_cases (hr : r.Composed) {input : TimedInput} {plan : PlannedTransition}
    (hfresh : ∀ revision result, input.event ≠ .stabilityConfirmation revision result)
    (h : r.plan input = .ok plan) :
    Kept r plan ∨ ∃ sender message entries through committed more,
      input.event = .peer sender message ∧
      message.body = .newState entries through committed more ∧
      r.planPeer sender message input.time input.event.kind = .ok plan := by
  have hparked : ∀ {planned : Planned}, r.refuseIfParked planned = .ok plan →
      planned = .ok plan := by
    intro planned hp
    unfold refuseIfParked at hp
    split at hp
    · cases hp
    · exact hp
  unfold Replica.plan at h
  split at h
  · cases h
  · simp only at h
    split at h
    · cases h
    · split at h
      · rename_i revision result hevent
        exact absurd hevent (hfresh revision result)
      · exact Or.inl (planTick_kept hr (hparked h))
      · exact Or.inl (planPropose_kept hr (hparked h))
      · rename_i sender message hevent
        by_cases hchunk : message.tag = .newState
        · unfold Message.tag at hchunk
          cases hbody : message.body with
          | newState entries through committed more =>
            exact Or.inr ⟨sender, message, entries, through, committed, more, hevent, hbody,
              hparked h⟩
          | _ => rw [hbody] at hchunk; cases hchunk
        · exact Or.inl (planPeer_kept hr hchunk (hparked h))
      · exact Or.inl (planApplied_kept hr (hparked h))
      · exact Or.inl (planAdminForceView_kept hr (hparked h))
      · exact Or.inl (planCheckpointed_kept hr (hparked h))
      · exact Or.inl (planReconfigure_kept hr (hparked h))
      · exact Or.inl (planReincarnate_kept hr (hparked h))
      · exact Or.inl (planSubmitPlan_kept hr (hparked h))

theorem plan_promising (hr : r.Composed) {input : TimedInput} {plan : PlannedTransition}
    (hfresh : ∀ revision result, input.event ≠ .stabilityConfirmation revision result)
    (h : r.plan input = .ok plan) : Promising r plan := by
  rcases plan_cases hr hfresh h with hkept | ⟨_, _, _, _, _, _, -, hbody, hpeer⟩
  · exact hkept.toPromising
  · exact (planPeer_newState hr hbody hpeer).1

end Host

end Replica

end UvrrCore
