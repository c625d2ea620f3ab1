import UvrrCore.Draft.Handlers

/-!
# Every plan is a draft

The handlers of fused envelopes, planned overlaps, transferred chunks, reincarnation and the
host's inputs, and the dispatch over all of them: `plan_drafted`.
-/

namespace UvrrCore

namespace Replica

variable {J : Type} [Journal J] {r : Replica J} {given : Given} {kind : InputKind} {time : Nat}
  {plan : PlannedTransition}

/-! ### Fused envelopes and planned overlaps -/

theorem planFuse_drafted (hgiven : r.Reported given.shape) {sender : Nat} {message : Message}
    {ops : List SystemOperation} (hwidth : ops.length ≤ given.width)
    (h : r.planFuse sender message ops time kind = .ok plan) : r.Drafted given plan := by
  cases planFuse_cases h with
  | dropped _ hdrop => exact dropPlan_drafted hdrop
  | signalled _ hsignal => exact planHigherViewSignal_drafted hgiven hsignal
  | next _ _ eras current entries last candidate _ hslab hlast hcandidate hplan =>
    subst hplan
    have hdata := candidateWith_ok hcandidate
    exact drafted_append (by rw [hdata]; rfl) (by rw [hdata]; rfl) (by rw [hdata]; rfl)
      (slabEntries_run hslab) hlast ((slabEntries_length hslab).trans hwidth)
      (by rw [hdata]; rfl) (by rw [hdata]; exact adoptedStatus_replays) (by simp [Effect.isApply])

theorem planPlannedViewChange_drafted {sender : Nat} {message : Message}
    (h : r.planPlannedViewChange sender message kind = .ok plan) : r.Drafted given plan := by
  simp only [planPlannedViewChange] at h
  split at h
  · split at h
    · exact dropPlan_drafted h
    · exact dropPlan_drafted h
  · split at h
    · exact dropPlan_drafted h
    · split at h
      · exact dropPlan_drafted h
      · obtain ⟨proof, -, h⟩ := bind_eq_ok.mp h
        obtain ⟨emitted, hemitted, h⟩ := bind_eq_ok.mp h
        have hdrafted : r.Drafted given emitted := emitPlan_drafted hemitted (by simp [Effect.isApply])
        split at h
        · cases pure_eq_ok.mp h
          exact hdrafted.withFetch _ _ _
        · cases pure_eq_ok.mp h
          exact hdrafted

theorem planPlannedSwitch_drafted {target : Ballot}
    (h : r.planPlannedSwitch target time kind = .ok plan) : r.Drafted given plan := by
  obtain ⟨candidate, hcandidate, h⟩ := bind_eq_ok.mp h
  obtain ⟨proof, -, h⟩ := bind_eq_ok.mp h
  cases pure_eq_ok.mp h
  have hdata := installCandidate_ok hcandidate
  refine Drafted.withBookkeeping (Unmoved.drafted ?_ (sendAll_isApply _ _ _))
    (fun attempt hset => by cases hset) fun _ => nofun
  constructor <;> rw [hdata] <;> first | rfl | exact fun hstatus => by cases hstatus

theorem planPlannedEvidence_drafted {sender : Nat} {message : Message} {evidence : Evidence}
    {proof : EraProof}
    (h : r.planPlannedEvidence sender message evidence proof time kind = .ok plan) :
    r.Drafted given plan := by
  simp only [planPlannedEvidence] at h
  split at h
  · exact dropPlan_drafted h
  · split at h
    · exact dropPlan_drafted h
    · split at h
      · exact dropPlan_drafted h
      · split at h
        · cases h
        · split at h
          · exact dropPlan_drafted h
          · split at h
            · exact planPlannedSwitch_drafted h
            · obtain ⟨emitted, hemitted, h⟩ := bind_eq_ok.mp h
              cases pure_eq_ok.mp h
              exact (emitPlan_drafted hemitted fun _ hmem => by cases hmem).withBookkeeping
                (fun attempt hset => by cases hset) fun _ => nofun

theorem planDoViewChange_drafted (hgiven : r.Reported given.shape) {sender : Nat}
    {message : Message} {evidence : Evidence} {evidenceKind : EvidenceKind} {proof : EraProof}
    (hshape : suffixShapeOk evidence.suffix evidence.accepted = true →
      given.shape evidence.suffix evidence.accepted)
    (hbody : message.body = .doViewChange evidence.retained evidence.accepted evidence.committed
      evidence.suffix evidenceKind proof)
    (hwins : ∀ attempt, r.Carries (.peer sender message) attempt → r.FitWin given attempt)
    (h : r.planDoViewChange sender message evidence evidenceKind proof time kind = .ok plan) :
    r.Drafted given plan := by
  cases evidenceKind with
  | planned => exact planPlannedEvidence_drafted h
  | ordinary => exact planOrdinaryEvidence_drafted hgiven hshape hbody hwins h

/-! ### Transfer -/

theorem planGetState_drafted {sender : Nat} {message : Message} {start : Nat}
    (h : r.planGetState sender message start kind = .ok plan) : r.Drafted given plan := by
  simp only [planGetState] at h
  split at h
  · exact dropPlan_drafted h
  · split at h
    · exact dropPlan_drafted h
    · exact dropPlan_drafted h
    · exact dropPlan_drafted h
    all_goals
      split at h
      · exact dropPlan_drafted h
      · exact emitPlan_drafted h (by simp [Effect.isApply])

theorem chunkCursor_isApply (view : Ballot) (sender accepted : Nat) (onward : Bool) :
    ∀ effect ∈ (chunkCursor view sender accepted onward).1, effect.isApply = false := by
  unfold chunkCursor
  split
  · split
    · simp [fetch, Effect.isApply]
    · simp
  · simp

omit [Journal J] in
/-- A chunk never commits beyond itself. -/
theorem chunkCommit_bounds {view : Ballot} {committed newAccepted : Nat}
    (h : r.progress.committed ≤ newAccepted) :
    r.progress.committed ≤ r.chunkCommit view committed newAccepted ∧
      r.chunkCommit view committed newAccepted ≤ newAccepted := by
  unfold chunkCommit
  split
  · omega
  · split
    · omega
    · omega

/-- The fold of a chunk goes on from the committed frontier, and not beyond the log behind it. -/
theorem foldChunk_bounds {view : Ballot} {entries : List LogEntry} {through committed : Nat}
    {folded : FoldedCommit}
    (hfold : r.foldCommitted entries r.progress.committed
      (r.chunkCommit view committed (max r.progress.accepted through)) true = .ok folded) :
    r.progress.committed ≤ r.chunkCommit view committed (max r.progress.accepted through) ∧
      r.progress.committed ≤ folded.covered ∧
      folded.covered ≤ max r.progress.accepted through := by
  have hbelow : r.progress.committed ≤ max r.progress.accepted through :=
    r.progress.committed_le_accepted.trans (le_max_left _ _)
  obtain ⟨hlow, hhigh⟩ := chunkCommit_bounds hbelow
  obtain ⟨hstart, hend, -⟩ := foldCommitted_covered hfold
  exact ⟨hlow, hstart, (hend hlow).trans hhigh⟩

/-- **The install of a chunk.** What the verdict allows is the whole chunk, or, at a boot fence
whose fold stopped short, what the fold covered. -/
theorem installChunk_drafted {sender : Nat} {view : Ballot} {entries : List LogEntry}
    {through newCommitted : Nat} {more : Bool} {folded : FoldedCommit}
    {mutation : JournalMutation}
    (hfold : r.foldCommitted entries r.progress.committed newCommitted true = .ok folded)
    (hahead : r.progress.accepted < through) (hbound : folded.covered ≤ through)
    (hrewrite : r.Rewrite given entries folded.covered mutation
        (if r.bootAcquisition view && decide (folded.covered < through) then
          max r.progress.accepted folded.covered else through))
    (h : r.installChunk sender view entries through more folded mutation kind = .ok plan) :
    r.Drafted given plan := by
  obtain ⟨applies, happlies, h⟩ := bind_eq_ok.mp h
  obtain ⟨walkedView, hwalked, h⟩ := bind_eq_ok.mp h
  obtain ⟨applied, hwalk, h⟩ := bind_eq_ok.mp h
  obtain ⟨candidate, hcandidate, h⟩ := bind_eq_ok.mp h
  cases pure_eq_ok.mp h
  have hlow := (foldCommitted_covered hfold).1
  have hrecord : candidate.committed = folded.covered ∧ candidate.config = folded.config ∧
      candidate.applied = applied ∧
      (candidate.status = .replaying → r.progress.status = .replaying) ∧
      candidate.accepted = if r.bootAcquisition view then max r.progress.accepted folded.covered
        else max r.progress.accepted through := by
    unfold chunkCandidate at hcandidate
    split at hcandidate
    · rw [walkedCandidate_ok hcandidate]
      exact ⟨rfl, rfl, rfl, id, rfl⟩
    · rw [candidateWith_ok hcandidate]
      exact ⟨rfl, rfl, rfl, id, rfl⟩
  -- the operations are read from the covered part of the chunk
  have hread : applyRange (merged r.journal entries) (folded.covered - r.progress.committed)
      r.progress.committed = .ok applies := by
    unfold chunkApplies at happlies
    split at happlies
    · rw [← happlies]
      refine applyRange_congr fun slot _ hslot => ?_
      unfold merged
      rw [entryAt_covered entries (by omega)]
    · cases happlies
      rw [show folded.covered - r.progress.committed = 0 by omega]
      rfl
  have hwalkAll : r.appliedWalk entries r.progress.applied folded.covered = .ok applied := by
    rw [← hwalk]
    refine systemWalk_congr fun slot _ hslot => ?_
    have hcommitted := r.progress.applied_le_committed
    split
    · unfold merged
      rw [entryAt_covered entries (by omega)]
    · rfl
  have hfilter : applies.filter Effect.isApply = applies := filter_applyRange hread
  refine Drafted.withBookkeeping ?_ (fun attempt hset => by cases hset) fun _ => nofun
  obtain ⟨hcommitted, hconfig, happlied, hreplays, haccepted⟩ := hrecord
  refine drafted_commit entries hfold hcommitted (happlied ▸ hwalkAll) (.inl hconfig) (.inl rfl)
    hread ?_ hreplays ?_
  · refine (List.filter_append _ _).trans ?_
    rw [hfilter]
    exact (congrArg (applies ++ ·) (filter_silent (chunkCursor_isApply _ _ _ _))).trans
      (List.append_nil _)
  · rw [haccepted]
    by_cases hacquires : r.bootAcquisition view = true
    · rw [if_pos hacquires]
      by_cases hshort : folded.covered < through
      · rwa [if_pos (by simp [hacquires, hshort])] at hrewrite
      · rw [if_neg (by simp [hshort])] at hrewrite
        rwa [show max r.progress.accepted folded.covered = through by omega]
    · rw [if_neg (by simp [hacquires])] at hrewrite
      rwa [if_neg hacquires, show max r.progress.accepted through = through by omega]

/-- The chunk comes to a boot-fenced replica, and its fold stops below the accepted frontier. -/
def ChunkCutsShort (r : Replica J) (message : Message) : Prop :=
  match message.body with
  | .newState entries through committed _ =>
    r.bootFenced = true ∧ ∃ folded,
      r.foldCommitted entries r.progress.committed
          (r.chunkCommit message.header.view committed (max r.progress.accepted through)) true =
        .ok folded ∧ folded.covered < r.progress.accepted
  | _ => False

/-- **A chunk is installed in part**: it passes every check, reaches a boot-fenced replica, and
its fold stops below the chunk's end. The mutation is what is left of the install. -/
structure ChunkTruncates (r : Replica J) (sender : Nat) (message : Message)
    (entries : List LogEntry) (through committed : Nat) (more : Bool) (folded : FoldedCommit)
    (mutation : JournalMutation) : Prop where
  body : message.body = .newState entries through committed more
  known : ∃ record, r.progress.config.record message.header.view.era = some record ∧
    (record.config.weightOf sender).isNone = false
  formed : ¬(message.header.slot ≠ through ∨ (more = false ∧ through < committed) ∨
    suffixShapeOk entries through = false ∨ (entries = [] ∧ more = true))
  qualified : r.chunkQualified sender message.header.view = true
  current : ¬ committed < r.progress.committed
  ahead : r.progress.accepted < through
  whole : ∃ whole, r.checkSuffix entries through committed Slot.none = .install whole
  boot : r.bootAcquisition message.header.view = true
  fold : r.foldCommitted entries r.progress.committed
    (r.chunkCommit message.header.view committed (max r.progress.accepted through)) true =
      .ok folded
  short : folded.covered < through
  part : r.truncatedMutation entries folded.covered committed = .install mutation

/-- What is installed of a chunk in part leaves the journal as long as it is, or leaves it alone. -/
def KeepsTail (r : Replica J) (sender : Nat) (message : Message) : Prop :=
  ∀ entries through committed more folded mutation,
    r.ChunkTruncates sender message entries through committed more folded mutation →
      r.progress.accepted ≤ folded.covered ∨ mutation = .none

theorem keepsTail_of_not_cutsShort {sender : Nat} {message : Message}
    (h : ¬ r.ChunkCutsShort message) : r.KeepsTail sender message := by
  intro entries through committed more folded mutation htruncates
  unfold ChunkCutsShort at h
  rw [htruncates.body] at h
  have hboot := htruncates.boot
  simp only [bootAcquisition, Bool.and_eq_true] at hboot
  exact .inl (Nat.le_of_not_lt fun hlt => h ⟨hboot.2, folded, htruncates.fold, hlt⟩)

theorem planNewState_drafted {sender : Nat} {message : Message} {entries : List LogEntry}
    {through committed : Nat} {more : Bool}
    (hbody : message.body = .newState entries through committed more)
    (hshape : suffixShapeOk entries through = true → given.shape entries through)
    (hcut : given.uncut → r.KeepsTail sender message)
    (h : r.planNewState sender message entries through committed more kind = .ok plan) :
    r.Drafted given plan := by
  cases planNewState_cases h with
  | dropped _ hdrop => exact dropPlan_drafted hdrop
  | breached hbreach => exact breachPlan_drafted hbreach
  | closed emitted hemit hplan =>
    subst hplan
    exact (emitPlan_drafted hemit fun _ hmem => by cases hmem).withBookkeeping
      (fun attempt hset => by cases hset) fun _ => nofun
  | installed record hrecord hmember hformed hqualified hcurrent hahead whole hwhole folded hfold
      mutation hverdict hinstall =>
    obtain ⟨hlow, -, hcovered⟩ := foldChunk_bounds hfold
    refine installChunk_drafted hfold (by omega) (by omega) ?_ hinstall
    have hshape : given.shape entries through := by
      simp only [not_or, Bool.not_eq_false] at hformed
      exact hshape hformed.2.2.1
    rcases chunkVerdict_install hverdict with ⟨hwholly, rfl⟩ | ⟨hacquires, hshort, hpart⟩
    · rw [if_neg (by simpa using hwholly)]
      -- a chunk that is installed is longer than the journal
      exact .spliced hshape hwhole (Nat.zero_le _) fun hlt => absurd hlt (by omega)
    · rw [if_pos (by simp [hacquires, hshort])]
      have hboot := hacquires
      simp only [bootAcquisition, Bool.and_eq_true] at hboot
      have htruncates : r.ChunkTruncates sender message entries through committed more folded
          mutation :=
        ⟨hbody, ⟨record, hrecord, hmember⟩, hformed, hqualified, hcurrent, hahead,
          ⟨whole, hwhole⟩, hacquires, hfold, hshort, hpart⟩
      exact .truncated hboot.2 (fun hg => hcut hg _ _ _ _ _ _ htruncates) hshape ⟨whole, hwhole⟩
        hshort hpart

/-! ### Reincarnation and plans -/

theorem missedRangePush_isApply (r : Replica J) (view : Ballot) (recipient prepared : Nat) :
    ∀ effect ∈ (r.missedRangePush view recipient prepared).toList, effect.isApply = false := by
  intro effect hmem
  rw [Option.mem_toList] at hmem
  unfold missedRangePush at hmem
  simp only at hmem
  split at hmem
  · cases hmem
  · split at hmem
    · cases hmem
    · cases hmem
      rfl

omit [Journal J] in
theorem establishingCopy_isApply {recipient era : Nat} (found : Option Message) :
    ∀ effect ∈ (found.map fun establishing => Effect.send recipient era establishing).toList,
      effect.isApply = false := by
  cases found with
  | none => simp
  | some message => simp [Effect.isApply]

theorem adminVerdict_drafted {verdict : PlanVerdict} (h : r.adminVerdict verdict kind = .ok plan) :
    r.Drafted given plan := emitPlan_drafted h (by simp [Effect.isApply])

theorem planSubmitPlan_drafted {submitted : Plan} (hwidth : fuseMaxOps ≤ given.width)
    (h : r.planSubmitPlan submitted kind = .ok plan) : r.Drafted given plan := by
  simp only [planSubmitPlan] at h
  split at h
  · exact adminVerdict_drafted h
  · split at h
    · exact adminVerdict_drafted h
    · split at h
      · exact adminVerdict_drafted h
      · split at h
        · obtain ⟨proposal, hproposal, h⟩ := bind_eq_ok.mp h
          cases pure_eq_ok.mp h
          refine Drafted.withPlanExecution ?_ _
          exact (planStepProposal_drafted hwidth hproposal).withAfter (by simp [Effect.isApply])
        · obtain ⟨answer, hanswer, h⟩ := bind_eq_ok.mp h
          cases pure_eq_ok.mp h
          exact (adminVerdict_drafted hanswer).withPlanExecution _

theorem planExecutionContinuation_drafted {planned : Planned} (hwidth : fuseMaxOps ≤ given.width)
    (hsome : r.planExecutionContinuation = some planned) (h : planned = .ok plan) :
    r.Drafted given plan := by
  simp only [planExecutionContinuation] at hsome
  split at hsome
  · cases hsome
  · split at hsome
    · cases hsome
    · split at hsome
      · rw [← Option.some.inj hsome] at h
        cases h
      · split at hsome
        · rw [← Option.some.inj hsome] at h
          obtain ⟨drop, hdrop, h⟩ := bind_eq_ok.mp h
          cases pure_eq_ok.mp h
          exact (dropPlan_drafted hdrop).withPlanExecution _
        · split at hsome
          · rw [← Option.some.inj hsome] at h
            obtain ⟨proposal, hproposal, h⟩ := bind_eq_ok.mp h
            cases pure_eq_ok.mp h
            exact (planStepProposal_drafted hwidth hproposal).withPlanExecution _
          · cases hsome

theorem planReincarnation_drafted {sender : Nat} {message : Message} (hwidth : 1 ≤ given.width)
    (h : r.planReincarnation sender message kind = .ok plan) : r.Drafted given plan := by
  have hanswered : ∀ {p : PlannedTransition} {update : Update ForcedSequence} {ack : List Effect},
      r.dropPlan .none kind = .ok p → (∀ effect ∈ ack, effect.isApply = false) →
      r.Drafted given { p.withReincarnation update with effects := p.effects ++ ack } := by
    intro p update ack hdrop hack
    exact ((dropPlan_drafted hdrop).withReincarnation update).withAfter hack
  simp only [planReincarnation] at h
  split at h
  · split at h
    · exact dropPlan_drafted h
    · split at h
      · cases h
      · split at h
        · obtain ⟨drop, hdrop, h⟩ := bind_eq_ok.mp h
          cases pure_eq_ok.mp h
          exact hanswered hdrop (r.missedRangePush_isApply _ _ _)
        · split at h
          · obtain ⟨proposal, hproposal, h⟩ := bind_eq_ok.mp h
            cases pure_eq_ok.mp h
            have hdrafted : r.Drafted given proposal := planReconfigure_drafted hwidth hproposal
            refine hdrafted.of_eq rfl rfl rfl rfl rfl ?_ rfl rfl
            show (_ ++ proposal.effects ++ _).filter Effect.isApply = _
            rw [List.filter_append, List.filter_append,
              filter_silent (r.missedRangePush_isApply _ _ _),
              filter_silent (establishingCopy_isApply _), List.nil_append, List.append_nil]
          · obtain ⟨drop, hdrop, h⟩ := bind_eq_ok.mp h
            cases pure_eq_ok.mp h
            exact hanswered hdrop (r.missedRangePush_isApply _ _ _)
  · exact dropPlan_drafted h

theorem planGossipRequest_drafted {sender : Nat} {message : Message}
    (h : r.planGossipRequest sender message kind = .ok plan) : r.Drafted given plan := by
  simp only [planGossipRequest] at h
  split at h
  · split at h
    · exact dropPlan_drafted h
    · obtain ⟨drop, hdrop, h⟩ := bind_eq_ok.mp h
      cases pure_eq_ok.mp h
      have hdrafted : r.Drafted given drop := dropPlan_drafted hdrop
      exact (hdrafted.withAfter (r.missedRangePush_isApply message.header.view sender _)).withAfter
        (by simp [Effect.isApply])
  · exact dropPlan_drafted h

theorem planForcedContinuation_drafted {planned : Planned} (hwidth : 1 ≤ given.width)
    (hsome : r.planForcedContinuation = some planned) (h : planned = .ok plan) :
    r.Drafted given plan := by
  simp only [planForcedContinuation] at hsome
  split at hsome
  · cases hsome
  · split at hsome
    · cases hsome
    · split at hsome
      · split at hsome
        · rename_i emitted hemitted
          rw [← Option.some.inj hsome] at h
          cases h
          exact (emitPlan_drafted hemitted fun _ hmem => by cases hmem).withReincarnation _
        · cases hsome
      · split at hsome
        · rw [← Option.some.inj hsome] at h
          obtain ⟨proposal, hproposal, h⟩ := bind_eq_ok.mp h
          cases pure_eq_ok.mp h
          exact (planReconfigure_drafted hwidth hproposal).withReincarnation _
        · cases hsome

theorem planReincarnate_drafted {old : Nat} (hwidth : 1 ≤ given.width)
    (h : r.planReincarnate old kind = .ok plan) : r.Drafted given plan := by
  simp only [planReincarnate] at h
  split at h
  · cases h
  · have hany : ∀ {announcement : Message} {seated : Bool},
        (if old = r.own ∨ seated = true then r.dropPlan .none kind
          else if r.isLeader then r.planReincarnation r.own announcement kind
          else r.emitPlan (sendAll r.backups r.progress.current.era announcement) kind) =
          .ok plan → r.Drafted given plan := by
      intro announcement seated h
      split at h
      · exact dropPlan_drafted h
      · split at h
        · exact planReincarnation_drafted hwidth h
        · exact emitPlan_drafted h (sendAll_isApply _ _ _)
    exact hany h

/-! ### The host's inputs -/

theorem refetch_drafted {planned : Planned} (hsome : r.refetch = some planned)
    (h : planned = .ok plan) : r.Drafted given plan := by
  simp only [refetch] at hsome
  split at hsome
  · cases hsome
  · rw [← Option.some.inj hsome] at h
    obtain ⟨emitted, hemitted, h⟩ := bind_eq_ok.mp h
    cases pure_eq_ok.mp h
    exact (emitPlan_drafted hemitted (by simp [fetch, Effect.isApply])).withBookkeeping
      (fun attempt hset => by cases hset) fun _ => nofun

theorem planCheckpointed_drafted {through : Nat} (h : r.planCheckpointed through = .ok plan) :
    r.Drafted given plan := by
  simp only [planCheckpointed] at h
  split at h
  · cases h
  · split at h
    · exact emitPlan_drafted h fun _ hmem => by cases hmem
    · obtain ⟨candidate, hcandidate, h⟩ := bind_eq_ok.mp h
      cases pure_eq_ok.mp h
      have hrecord := asCandidate_eq_ok.mp hcandidate
      unfold Progress.withCheckpoint at hrecord
      split at hrecord
      · cases hrecord
      · split at hrecord
        · cases hrecord
        · have hdata := (Progress.transition_data hrecord).1
          refine Unmoved.drafted ?_ fun _ hmem => by cases hmem
          constructor <;> rw [hdata]
          exact id

theorem planApplied_drafted {slot : Nat} (hreported : given.acknowledges)
    (h : r.planApplied slot = .ok plan) : r.Drafted given plan := by
  obtain ⟨expected, -, h⟩ := bind_eq_ok.mp h
  split at h
  · cases h
  · obtain ⟨applied, -, h⟩ := bind_eq_ok.mp h
    obtain ⟨candidate, hcandidate, h⟩ := bind_eq_ok.mp h
    cases pure_eq_ok.mp h
    have hdata := candidateWith_ok hcandidate
    have hcommitted : candidate.committed = r.progress.committed := by rw [hdata]; rfl
    have hconfig : candidate.config = r.progress.config := by rw [hdata]; rfl
    have haccepted : candidate.accepted = r.progress.accepted := by rw [hdata]; rfl
    refine Drafted.withBookkeeping ?_ (fun attempt hset => by cases hset) fun _ => nofun
    have hreplays : candidate.status = .replaying → r.progress.status = .replaying := by
      rw [hdata]
      show r.appliedStatus applied = .replaying → _
      unfold appliedStatus
      split
      · intro hstatus
        cases hstatus
      · exact id
    refine ⟨rfl, rfl, rfl, .still hcommitted (.inr hreported) hconfig rfl ?_, hreplays,
      fun attempt hset => (by cases hset), fun offer hset => (by cases hset)⟩
    show r.Rewrite given [] r.progress.committed .none candidate.accepted
    rw [haccepted]
    exact .kept rfl

/-- The retained offer holds a message that could be stored. -/
def OfferStorable (r : Replica J) : Prop :=
  ∀ offer, r.stalled = some offer → offer.message.Storable

omit [Journal J] in
/-- The open attempt behind a transition is the one before, or the one the transition notes. -/
theorem installed_reported {shape : List LogEntry → Nat → Prop} {journal : J}
    (hold : ∀ attempt, r.viewChange = some attempt → attempt.Reported shape)
    (hnoted : ∀ attempt, plan.bookkeeping.viewChange = .set attempt → attempt.Reported shape) :
    ∀ attempt, (r.installed plan journal).viewChange = some attempt →
      attempt.Reported shape := by
  intro attempt hsome
  have hupdate : plan.bookkeeping.viewChange.applyTo r.viewChange = some attempt := hsome
  cases hview : plan.bookkeeping.viewChange with
  | unchanged =>
    rw [hview] at hupdate
    exact hold attempt hupdate
  | set value =>
    rw [hview] at hupdate
    cases hupdate
    exact hnoted _ hview
  | clear =>
    rw [hview] at hupdate
    cases hupdate

omit [Journal J] in
/-- The offer retained behind a transition is the one before, or the one the transition notes. -/
theorem OfferStorable.installed {journal : J} (hold : r.OfferStorable)
    (hnoted : ∀ offer, plan.bookkeeping.stalled = .set offer → offer.message.Storable) :
    (r.installed plan journal).OfferStorable := by
  intro offer hsome
  have hupdate : plan.bookkeeping.stalled.applyTo r.stalled = some offer := hsome
  cases hstalled : plan.bookkeeping.stalled with
  | unchanged =>
    rw [hstalled] at hupdate
    exact hold offer hupdate
  | set value =>
    rw [hstalled] at hupdate
    cases hupdate
    exact hnoted _ hstalled
  | clear =>
    rw [hstalled] at hupdate
    cases hupdate

theorem redriveOffer_drafted
    (hoffer : ∀ offer, r.stalled = some offer → given.kept offer.message ∧ given.Admits offer.message)
    (hviews : r.FitViews given .tick)
    {planned : Planned} (hsome : r.redriveOffer time = some planned) (h : planned = .ok plan) :
    r.Drafted given plan := by
  simp only [redriveOffer] at hsome
  split at hsome
  · cases hsome
  · rename_i offer hstalled
    split at hsome
    · rename_i hbody
      split at hsome
      · rename_i hchecks
        rw [← Option.some.inj hsome] at h
        obtain ⟨hkept, hadmits⟩ := hoffer offer hstalled
        unfold Given.Admits at hadmits
        rw [hbody] at hadmits
        exact planStartView_drafted hkept hadmits hbody
          (hviews.announced _ _ _ _ _ (.inr ⟨rfl, ⟨offer, hstalled, rfl, rfl⟩, hchecks.2⟩)) h
      · cases hsome
    · cases hsome

variable (hgiven : r.Reported given.shape)

include hgiven

theorem redriveWin_drafted (hviews : r.FitViews given .tick) {planned : Planned}
    (hsome : r.redriveWin time = some planned)
    (h : planned = .ok plan) : r.Drafted given plan := by
  simp only [redriveWin] at hsome
  split at hsome
  · rename_i attempt _ hopen
    split at hsome
    · cases hsome
    · split at hsome
      · rw [← Option.some.inj hsome] at h
        obtain ⟨candidate, hcandidate, h⟩ := bind_eq_ok.mp h
        exact continueViewChange_drafted (identityCandidate_ok hcandidate).unmoved
          hgiven.own (hgiven.attempt attempt hopen) (hviews.wins attempt (.ticked hopen))
          (fun _ hmem => by cases hmem) h
      · cases hsome
  · cases hsome

theorem planTick_drafted
    (hoffer : ∀ offer, r.stalled = some offer → given.kept offer.message ∧ given.Admits offer.message)
    (hviews : r.FitViews given .tick) (hwidth : fuseMaxOps ≤ given.width)
    (h : r.planTick time = .ok plan) : r.Drafted given plan := by
  unfold planTick at h
  split at h
  · obtain ⟨candidate, hcandidate, h⟩ := bind_eq_ok.mp h
    cases pure_eq_ok.mp h
    have hdata := (Progress.transition_data (asCandidate_eq_ok.mp hcandidate)).1
    refine (Unmoved.drafted ?_ (sendAll_isApply _ _ _)).withActivity _
    constructor <;> rw [hdata]
    intro hstatus
    cases hstatus
  · split at h
    · split at h
      · cases h
      · exact enterViewChange_drafted hgiven h
    · split at h
      · rename_i planned hsome
        exact redriveOffer_drafted hoffer hviews hsome h
      · split at h
        · rename_i planned hwin
          exact redriveWin_drafted hgiven hviews hwin h
        · split at h
          · rename_i planned hfetch
            exact refetch_drafted hfetch h
          · split at h
            · rename_i planned hforced
              exact planForcedContinuation_drafted
                ((show 1 ≤ fuseMaxOps by decide).trans hwidth) hforced h
            · split at h
              · rename_i planned hexecution
                exact planExecutionContinuation_drafted hwidth hexecution h
              · exact emitPlan_drafted h fun _ hmem => by cases hmem

/-! ### Dispatch -/

theorem planBody_drafted {sender : Nat} {message : Message}
    (hkept : given.kept message) (hadmits : given.Admits message)
    (hviews : r.FitViews given (.peer sender message))
    (hwidth : message.appends ≤ given.width) (hcut : given.uncut → r.KeepsTail sender message)
    (h : r.planBody sender message time kind = .ok plan) : r.Drafted given plan := by
  unfold planBody at h
  have hwitness : ∀ {p : PlannedTransition}, r.Drafted given p →
      r.Drafted given (r.withJoinGossipWitness p sender) := by
    intro p hp
    unfold withJoinGossipWitness
    split
    · exact hp
    · exact hp.withWitness _
  unfold Given.Admits at hadmits
  unfold Message.appends at hwidth
  cases hbody : message.body with
  | prepare => rw [hbody] at h hwidth; exact planPrepare_drafted hgiven hwidth h
  | prepareOk => rw [hbody] at h; exact planPrepareOk_drafted h
  | commit => rw [hbody] at h; exact planCommit_drafted hgiven h
  | startViewChange => rw [hbody] at h; exact planStartViewChange_drafted hgiven hbody hviews.wins h
  | doViewChange =>
    rw [hbody] at h hadmits
    exact planDoViewChange_drafted hgiven hadmits hbody hviews.wins h
  | startView =>
    rw [hbody] at h hadmits
    exact planStartView_drafted hkept hadmits hbody (hviews.announced _ _ _ _ _ (.inl rfl)) h
  | plannedViewChange => rw [hbody] at h; exact planPlannedViewChange_drafted h
  | getState => rw [hbody] at h; exact planGetState_drafted h
  | newState =>
    rw [hbody] at h hadmits
    exact planNewState_drafted hbody hadmits hcut h
  | reincarnation =>
    rw [hbody] at h hwidth
    obtain ⟨p, hp, h⟩ := bind_eq_ok.mp h
    cases pure_eq_ok.mp h
    exact hwitness (planReincarnation_drafted hwidth hp)
  | gossipRequest =>
    rw [hbody] at h
    obtain ⟨p, hp, h⟩ := bind_eq_ok.mp h
    cases pure_eq_ok.mp h
    exact hwitness (planGossipRequest_drafted hp)
  | fuse => rw [hbody] at h hwidth; exact planFuse_drafted hgiven hwidth h
  | fuseOk => rw [hbody] at h; exact planFuseOk_drafted h
  | commitBatch => rw [hbody] at h; exact dropPlan_drafted h

theorem planPeer_drafted {sender : Nat} {message : Message}
    (hkept : given.kept message) (hadmits : given.Admits message)
    (hviews : r.FitViews given (.peer sender message)) (hwidth : message.appends ≤ given.width)
    (hcut : given.uncut → r.foreignSender sender message = false → r.KeepsTail sender message)
    (h : r.planPeer sender message time kind = .ok plan) : r.Drafted given plan := by
  unfold planPeer at h
  split at h
  · exact dropPlan_drafted h
  · rename_i hforeign
    obtain ⟨p, hp, h⟩ := bind_eq_ok.mp h
    cases pure_eq_ok.mp h
    have hdrafted := planBody_drafted hgiven hkept hadmits hviews hwidth
      (fun hg => hcut hg (by simpa using hforeign)) hp
    split
    · exact hdrafted.withActivity _
    · exact hdrafted

omit hgiven

omit [Journal J] in
theorem refuseIfParked_ok {planned : Planned} (h : r.refuseIfParked planned = .ok plan) :
    r.parked = none ∧ planned = .ok plan := by
  unfold refuseIfParked at h
  split at h
  · cases h
  · rename_i hnone
    exact ⟨Option.not_isSome_iff_eq_none.mp hnone, h⟩

/-- What is given of an input and of the state it comes to. -/
structure WellFed (r : Replica J) (input : TimedInput) : Prop where
  reported : r.WellReported
  offer : r.OfferStorable
  message : ∀ sender message, input.event = .peer sender message → message.Storable

/-- The input is a chunk that is cut short. -/
def CutsShort (r : Replica J) (input : TimedInput) : Prop :=
  ∃ sender message, input.event = .peer sender message ∧ r.ChunkCutsShort message

/-- What is given of a fresh input. -/
def givenOf (r : Replica J) (input : TimedInput) : Given where
  shape := fun entries accepted => r.WellFed input → Shaped entries accepted
  shorter := fun _ _ => True
  kept := fun message => r.WellFed input → message.Storable
  uncut := ¬ r.CutsShort input
  width := input.event.appends
  acknowledges := ∃ slot, input.event = .applied slot

/-- What is given is so, of a replica and a fresh input. -/
structure Holds (r : Replica J) (given : Given) (input : TimedInput) : Prop where
  reported : r.Reported given.shape
  offer : ∀ offer, r.stalled = some offer → given.kept offer.message ∧ given.Admits offer.message
  message : ∀ sender message, input.event = .peer sender message →
    given.kept message ∧ given.Admits message
  views : r.FitViews given input.event
  uncut : given.uncut → ∀ sender message, input.event = .peer sender message →
    r.foreignSender sender message = false → r.KeepsTail sender message
  width : input.event.appends ≤ given.width
  acknowledges : (∃ slot, input.event = .applied slot) → given.acknowledges

/-- **Every plan of a fresh input is a draft.** -/
theorem Holds.drafted {input : TimedInput} (hgiven : r.Holds given input)
    (hfresh : ∀ revision result, input.event ≠ .stabilityConfirmation revision result)
    (h : r.plan input = .ok plan) : r.Drafted given plan := by
  have hwidth := hgiven.width
  have hviews := hgiven.views
  unfold Replica.plan at h
  split at h
  · cases h
  · simp only at h
    split at h
    · cases h
    · split at h
      · rename_i revision result hevent
        exact absurd hevent (hfresh revision result)
      · rename_i hevent
        rw [hevent] at hwidth hviews
        exact planTick_drafted hgiven.reported hgiven.offer hviews hwidth (refuseIfParked_ok h).2
      · rename_i operation hevent
        rw [hevent] at hwidth
        exact planPropose_drafted hwidth (refuseIfParked_ok h).2
      · rename_i sender message hevent
        rw [hevent] at hwidth hviews
        obtain ⟨hkept, hadmits⟩ := hgiven.message sender message hevent
        exact planPeer_drafted hgiven.reported hkept hadmits hviews hwidth
          (fun huncut => hgiven.uncut huncut sender message hevent)
          (refuseIfParked_ok h).2
      · rename_i slot hevent
        exact planApplied_drafted (hgiven.acknowledges ⟨slot, hevent⟩) (refuseIfParked_ok h).2
      · exact planAdminForceView_drafted hgiven.reported (refuseIfParked_ok h).2
      · exact planCheckpointed_drafted (refuseIfParked_ok h).2
      · rename_i op pivot hevent
        rw [hevent] at hwidth
        exact planReconfigure_drafted hwidth (refuseIfParked_ok h).2
      · rename_i old hevent
        rw [hevent] at hwidth
        exact planReincarnate_drafted hwidth (refuseIfParked_ok h).2
      · rename_i submitted hevent
        rw [hevent] at hwidth
        exact planSubmitPlan_drafted hwidth (refuseIfParked_ok h).2

/-- A message that could be stored has a run of entries for a suffix. -/
theorem admits_of_storable {message : Message} {fed uncut acknowledges : Prop} {width : Nat}
    (h : fed → message.Storable) :
    Given.Admits
      { shape := fun entries accepted => fed → Shaped entries accepted
        shorter := fun _ _ => True
        kept := fun message => fed → message.Storable
        uncut := uncut, width := width, acknowledges := acknowledges } message := by
  unfold Message.Storable at h
  unfold Given.Admits
  cases hbody : message.body <;> rw [hbody] at h <;>
    first
    | trivial
    | exact fun hshape hfed => shaped_of_suffixShapeOk hshape (h hfed)

/-- Nothing has to be known of the views an input installs. -/
theorem fitViews_of_any (hany : ∀ entries accepted, given.shorter entries accepted)
    {event : Input} : r.FitViews given event :=
  ⟨fun _ _ _ _ _ => hany _ _, fun _ _ _ _ _ _ _ _ => hany _ _⟩

theorem givenOf_holds (r : Replica J) (input : TimedInput) :
    r.Holds (r.givenOf input) input where
  reported :=
    ⟨fun hfed => hfed.reported.own, fun attempt hopen =>
      ⟨fun node report hget hfed => (hfed.reported.attempt attempt hopen).evidence node report hget,
        fun node report hselected hfed =>
          (hfed.reported.attempt attempt hopen).selected node report hselected⟩⟩
  offer := fun offer hstalled =>
    have hstorable := fun hfed : r.WellFed input => hfed.offer offer hstalled
    ⟨hstorable, admits_of_storable hstorable⟩
  message := fun sender message hevent =>
    have hstorable := fun hfed : r.WellFed input => hfed.message sender message hevent
    ⟨hstorable, admits_of_storable hstorable⟩
  uncut := fun huncut sender message hevent _ =>
    keepsTail_of_not_cutsShort fun hcut => huncut ⟨sender, message, hevent, hcut⟩
  views := fitViews_of_any fun _ _ => trivial
  width := Nat.le_refl _
  acknowledges := id

theorem plan_drafted {input : TimedInput}
    (hfresh : ∀ revision result, input.event ≠ .stabilityConfirmation revision result)
    (h : r.plan input = .ok plan) : r.Drafted (r.givenOf input) plan :=
  (r.givenOf_holds input).drafted hfresh h

end Replica

end UvrrCore
