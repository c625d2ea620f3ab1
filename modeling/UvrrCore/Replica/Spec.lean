import UvrrCore.Replica.Dispatch

/-!
# What the helpers hand back

One lemma for each helper the handlers are assembled from: which record a candidate is, which
plan a plain transition is, and what the walks over the journal leave alone. The proofs about
handlers cite these and do not unfold the helpers again.
-/

namespace UvrrCore

theorem mem_sendAll {recipients : List Nat} {era : Nat} {message : Message} {effect : Effect}
    (h : effect ∈ Replica.sendAll recipients era message) :
    ∃ recipient ∈ recipients, effect = .send recipient era message := by
  obtain ⟨recipient, hmem, rfl⟩ := List.mem_map.mp h
  exact ⟨recipient, hmem, rfl⟩

/-- What a commit applies is nothing but apply effects. -/
theorem applyRange_mem {read : Nat → Option LogEntry} {left slot : Nat} {effects : List Effect}
    (h : applyRange read left slot = .ok effects) {effect : Effect} (hmem : effect ∈ effects) :
    ∃ at_ entry id payload, effect = .apply at_ id payload ∧ slot < at_ ∧ at_ ≤ slot + left ∧
      read at_ = some entry ∧ entry.payload = .operation id payload := by
  induction left generalizing slot effects with
  | zero =>
    cases h
    cases hmem
  | succ left ih =>
    simp only [applyRange] at h
    cases hread : read (slot + 1) with
    | none => rw [hread] at h; cases h
    | some entry =>
      simp only [hread] at h
      obtain ⟨rest, hrest, h⟩ := bind_eq_ok.mp h
      have hlater : effect ∈ rest → ∃ at_ entry id payload, effect = .apply at_ id payload ∧
          slot < at_ ∧ at_ ≤ slot + (left + 1) ∧ read at_ = some entry ∧
          entry.payload = .operation id payload := by
        intro hin
        obtain ⟨at_, e, id, payload, heq, hlow, hhigh, hr, hp⟩ := ih hrest hin
        exact ⟨at_, e, id, payload, heq, by omega, by omega, hr, hp⟩
      cases hpayload : entry.payload with
      | operation id payload =>
        simp only [hpayload] at h
        rw [← pure_eq_ok.mp h] at hmem
        rcases List.mem_cons.mp hmem with rfl | hmem
        · exact ⟨slot + 1, entry, id, payload, rfl, by omega, by omega, hread, hpayload⟩
        · exact hlater hmem
      | system op =>
        simp only [hpayload] at h
        rw [← pure_eq_ok.mp h] at hmem
        exact hlater hmem

/-! ### Nominations -/

theorem runNominations_none (ops : List SystemOperation) (era : Nat) :
    runNominations none ops era = none := by
  unfold runNominations
  generalize ops.flatMap SystemOperation.riders = riders
  induction riders with
  | nil => rfl
  | cons rider riders ih =>
    rw [List.foldl_cons]
    have hstep : runRider era none rider = none := by cases rider <;> rfl
    rw [hstep]
    exact ih

/-- A fold that runs over no ballot ends with none. -/
theorem foldSlotsThrough_running {read : Nat → Option LogEntry} {runFuel : Nat}
    {current : Ballot} {through : Nat} {paced : Bool} {rounds : Nat} {folding folded : Folding}
    (h : foldSlotsThrough read runFuel current through paced rounds folding = .ok folded)
    (hnone : folding.running = none) : folded.running = none := by
  induction rounds generalizing folding with
  | zero =>
    cases h
    exact hnone
  | succ rounds ih =>
    simp only [foldSlotsThrough] at h
    split at h
    · cases h
      exact hnone
    · split at h
      · cases h
      · split at h
        · exact ih h hnone
        · split at h
          · cases h
          · rename_i extended ops last _
            have hnominated : runNominations folding.running ops extended.current.era = none := by
              rw [hnone]
              exact runNominations_none _ _
            split at h
            · cases h
              exact hnone
            · exact ih h hnominated

namespace Replica

variable {J : Type}

/-! ### Candidates -/

/-- The record one revision on and otherwise unchanged. -/
def SameRecord (r : Replica J) (candidate : Progress) : Prop :=
  candidate.toProgressData =
    { r.progress.toProgressData with revision := r.progress.revision + 1 }

theorem asCandidate_eq_ok {result : Except ProgressError Progress} {candidate : Progress} :
    asCandidate result = .ok candidate ↔ result = .ok candidate := by
  cases result <;> simp [asCandidate]

theorem identityCandidate_ok {r : Replica J} {candidate : Progress}
    (h : r.identityCandidate = .ok candidate) : r.SameRecord candidate := by
  unfold identityCandidate Progress.withStatus at h
  exact (Progress.transition_data (asCandidate_eq_ok.mp h)).1

theorem nextRecord_ok {r : Replica J} {data : ProgressData} {candidate : Progress}
    (h : r.nextRecord data = .ok candidate) :
    candidate.toProgressData =
      { data with
        checkpoint := r.progress.checkpoint, revision := r.progress.revision + 1
        fault := none } := by
  unfold nextRecord at h
  split at h
  · exact Progress.reconstitute_data (asCandidate_eq_ok.mp h)
  · cases h

theorem nextRecord_room {r : Replica J} {data : ProgressData} {candidate : Progress}
    (h : r.nextRecord data = .ok candidate) : r.progress.revision + 1 < u64Bound := by
  unfold nextRecord at h
  split at h
  · assumption
  · cases h

/-- The records `candidateWith` builds. -/
def recordWith (r : Replica J) (status : Status) (accepted committed applied : Nat)
    (config : EraTable) (view : Option Ballot) : ProgressData :=
  { r.progress.toProgressData with
    current := view.getD r.progress.current, retained := view.getD r.progress.retained
    status := status, accepted := accepted, committed := committed, applied := applied
    config := config, revision := r.progress.revision + 1, fault := none }

theorem candidateWith_ok {r : Replica J} {status : Status} {accepted committed applied : Nat}
    {config : EraTable} {view : Option Ballot} {candidate : Progress}
    (h : r.candidateWith status accepted committed applied config view = .ok candidate) :
    candidate.toProgressData = r.recordWith status accepted committed applied config view :=
  nextRecord_ok h

/-- The records `installCandidate` builds. -/
def recordServing (r : Replica J) (view : Ballot) (accepted committed applied : Nat)
    (config : EraTable) : ProgressData :=
  { r.progress.toProgressData with
    current := view, retained := view, status := .normal, accepted := accepted
    committed := committed, applied := applied, config := config
    revision := r.progress.revision + 1, fault := none }

theorem installCandidate_ok {r : Replica J} {view : Ballot} {accepted committed applied : Nat}
    {config : EraTable} {candidate : Progress}
    (h : r.installCandidate view accepted committed applied config = .ok candidate) :
    candidate.toProgressData = r.recordServing view accepted committed applied config :=
  nextRecord_ok h

theorem walkedCandidate_ok {r : Replica J} {target : Ballot} {accepted committed applied : Nat}
    {config : EraTable} {candidate : Progress}
    (h : r.walkedCandidate target accepted committed applied config = .ok candidate) :
    candidate.toProgressData =
      { r.progress.toProgressData with
        current := target, retained := target, accepted := accepted, committed := committed
        applied := applied, config := config, revision := r.progress.revision + 1
        fault := none } :=
  nextRecord_ok h

/-- The fence of a view change, and that its target lies ahead. -/
theorem withViewChange_ok {p candidate : Progress} {target : Ballot}
    (h : p.withViewChange target = .ok candidate) :
    p.current.isLegalSuccessor target = true ∧
      candidate.toProgressData =
        { p.toProgressData with
          current := target, status := .viewChange, revision := p.revision + 1 } := by
  unfold Progress.withViewChange at h
  split at h
  · cases h
  · split at h
    · cases h
    · rename_i hsucc
      exact ⟨by simpa using hsucc, (Progress.transition_data h).1⟩

/-! ### The plain transitions -/

theorem emitPlan_ok {r : Replica J} {effects : List Effect} {kind : InputKind}
    {plan : PlannedTransition} (h : r.emitPlan effects kind = .ok plan) :
    ∃ candidate, r.SameRecord candidate ∧
      plan = r.candidatePlan candidate .none effects kind false := by
  obtain ⟨candidate, hcandidate, h⟩ := bind_eq_ok.mp h
  exact ⟨candidate, identityCandidate_ok hcandidate, (pure_eq_ok.mp h).symm⟩

theorem dropPlan_ok {r : Replica J} {diagnostic : Diagnostic} {kind : InputKind}
    {plan : PlannedTransition} (h : r.dropPlan diagnostic kind = .ok plan) :
    ∃ candidate, r.SameRecord candidate ∧
      plan = (r.candidatePlan candidate .none [] kind false).withDiagnostic diagnostic := by
  obtain ⟨plan', hplan, h⟩ := bind_eq_ok.mp h
  obtain ⟨candidate, hsame, rfl⟩ := emitPlan_ok hplan
  exact ⟨candidate, hsame, (pure_eq_ok.mp h).symm⟩

theorem breachPlan_ok {r : Replica J} {kind : InputKind} {plan : PlannedTransition}
    (h : r.breachPlan kind = .ok plan) :
    ∃ candidate, r.SameRecord candidate ∧
      plan = (r.candidatePlan candidate .none [] kind false).withFaultDeclared
        .illegalTransition := by
  obtain ⟨plan', hplan, h⟩ := bind_eq_ok.mp h
  obtain ⟨candidate, hsame, rfl⟩ := emitPlan_ok hplan
  exact ⟨candidate, hsame, (pure_eq_ok.mp h).symm⟩

/-- An offer of an unknown era is dropped; it may be retained, and a fetch opened for it. -/
theorem planUnevaluableOffer_ok {r : Replica J} {sender : Nat} {message : Message}
    {proof : EraProof} {kind : InputKind} {plan : PlannedTransition}
    (h : r.planUnevaluableOffer sender message proof kind = .ok plan) :
    ∃ drop, r.dropPlan (.unevaluableEra message.header.view.era) kind = .ok drop ∧
      (plan = drop ∨ plan = drop.withStalledOffer sender message ∨
        ∃ next, plan = (drop.withStalledOffer sender message).withFetch
          (fetch r.progress.current sender next)) := by
  obtain ⟨drop, hdrop, h⟩ := bind_eq_ok.mp h
  refine ⟨drop, hdrop, ?_⟩
  simp only at h
  -- whether the offer is retained does not matter
  generalize (Era.next r.progress.current.era == some message.header.view.era || _) = retainable
    at h
  split at h
  · exact Or.inl (pure_eq_ok.mp h).symm
  · split at h
    · exact Or.inr (Or.inl (pure_eq_ok.mp h).symm)
    · split at h
      · exact Or.inr (Or.inl (pure_eq_ok.mp h).symm)
      · exact Or.inr (Or.inr ⟨_, (pure_eq_ok.mp h).symm⟩)

/-! ### Status -/

theorem isLeader_normal {r : Replica J} (h : r.isLeader = true) : r.progress.status = .normal := by
  unfold isLeader at h
  rw [Bool.and_eq_true, beq_iff_eq] at h
  exact h.1

theorem bootFenced_isBoot {r : Replica J} (h : r.bootFenced = true) :
    r.progress.status.isBoot = true := by
  unfold bootFenced at h
  rw [Bool.and_eq_true] at h
  exact h.1

theorem isBoot_ne {status : Status} (h : status.isBoot = true) :
    status ≠ .normal ∧ status ≠ .viewChange := by
  cases status <;> simp [Status.isBoot] at h ⊢

theorem adoptedStatus_normal {r : Replica J} {view : Ballot} (h : r.progress.status = .normal) :
    r.adoptedStatus view = .normal := by
  simp [adoptedStatus, h, Status.isBoot]

/-- An adopted view is served, or fenced as before. -/
theorem adoptedStatus_cases (r : Replica J) (view : Ballot) :
    r.adoptedStatus view = .normal ∨ r.adoptedStatus view = r.progress.status :=
  ite_eq_or_eq _ _ _

/-! ### Faults -/

/-- A fault changes the record only: it is noted, one revision on. -/
theorem faultNode_cases (r : Replica J) (fault : Fault) :
    r.faultNode fault = r ∨
      ∃ progress : Progress, r.faultNode fault = { r with progress := progress } ∧
        progress.toProgressData =
          { r.progress.toProgressData with
            fault := some fault, revision := r.progress.revision + 1 } := by
  unfold faultNode
  cases h : r.progress.withFault fault with
  | error => exact Or.inl rfl
  | ok progress => exact Or.inr ⟨progress, rfl, (Progress.transition_data h).1⟩

theorem faultNode_journal (r : Replica J) (fault : Fault) :
    (r.faultNode fault).journal = r.journal := by
  rcases faultNode_cases r fault with heq | ⟨progress, heq, -⟩
  · rw [heq]
  · rw [heq]

/-! ### Folds -/

variable [Journal J]

/-- Only a serving node's commit bumps its ballot. -/
theorem foldCommitted_bump {r : Replica J} {overlay : List LogEntry} {start through : Nat}
    {paced : Bool} {folded : FoldedCommit}
    (h : r.foldCommitted overlay start through paced = .ok folded)
    (hstatus : r.progress.status ≠ .normal) : folded.bump = none := by
  simp only [foldCommitted, if_neg hstatus] at h
  split at h
  · cases h
  · rename_i folding hfold
    rw [← Except.ok.inj h]
    show folding.running.filter _ = none
    rw [foldSlotsThrough_running hfold rfl]
    rfl

/-- When a win falls short it hands the effects back. -/
theorem planWinView_insufficient {r : Replica J} {target : Ballot} {selected : Evidence}
    {evidence : OrdMap Nat Evidence} {effects effects' : List Effect} {expected got time : Nat}
    {kind : InputKind}
    (h : r.planWinView target selected evidence effects time kind =
      .ok (.insufficient expected got effects')) : effects' = effects := by
  simp only [planWinView] at h
  split at h
  · cases h
    rfl
  · split at h
    · cases h
      rfl
    · obtain ⟨_, _, h⟩ := bind_eq_ok.mp h
      cases h
    · obtain ⟨_, _, h⟩ := bind_eq_ok.mp h
      split at h
      · cases h
      · obtain ⟨_, _, h⟩ := bind_eq_ok.mp h
        cases h
      · obtain ⟨_, _, h⟩ := bind_eq_ok.mp h
        cases h
      · obtain ⟨_, _, h⟩ := bind_eq_ok.mp h
        obtain ⟨_, _, h⟩ := bind_eq_ok.mp h
        obtain ⟨_, _, h⟩ := bind_eq_ok.mp h
        cases h

/-! ### One input -/

/-- A faulted replica plans nothing, and neither does one whose records disagree. -/
theorem plan_gate {r : Replica J} {input : TimedInput} {plan : PlannedTransition}
    (h : r.plan input = .ok plan) : r.progress.fault = none ∧
      (Journal.accepted r.journal).getD Slot.none = r.progress.accepted := by
  unfold Replica.plan at h
  split at h
  · cases h
  · rename_i hfault
    simp only at h
    split at h
    · cases h
    · rename_i hfrontier
      exact ⟨hfault, not_not.mp hfrontier⟩

/-- Nothing is parked, so a confirmation is refused. -/
theorem fresh_of_unparked {r : Replica J} (hparked : r.parked = none) {input : TimedInput}
    {plan : PlannedTransition} (h : r.plan input = .ok plan) :
    ∀ revision result, input.event ≠ .stabilityConfirmation revision result := by
  intro revision result hevent
  unfold Replica.plan at h
  split at h
  · cases h
  · simp only [hevent] at h
    split at h
    · cases h
    · unfold planConfirmation at h
      rw [hparked] at h
      cases h

/-- **What a publication can do**: nothing, a fault, a parked transition, or an installed one. -/
inductive Publication (r : Replica J) (plan : PlannedTransition) :
    Replica J × Except PublishRefusal PublishOutcome → Prop where
  | refused (refusal : PublishRefusal) (hgate : ∀ error, refusal ≠ .journalRefused error) :
      Publication r plan (r, .error refusal)
  | faulted (fault : Fault) :
      Publication r plan (r.faultNode fault, .error (.illegalCandidate fault))
  /-- The journal refused the mutation of a legal transition. -/
  | diverged (error : JournalError)
      (hlegal : legal r.progress.toProgressData plan.candidate.toProgressData plan.kind = none)
      (hjournal : mutateJournal r.journal plan.journal = .error error) :
      Publication r plan
        (({ r with parked := none } : Replica J).faultNode .progressJournalDivergence,
          .error (.journalRefused error))
  | parked (hfresh : plan.completion = false) (hstability : r.stability ≠ .volatile)
      (hnone : r.parked = none) :
      Publication r plan
        ({ r with parked := some (park plan) }, .ok (.parked plan.base [.persist plan.intent]))
  | published (journal : J) (hbase : plan.base = r.progress.revision) (hfault : plan.fault = none)
      (hlegal : legal r.progress.toProgressData plan.candidate.toProgressData plan.kind = none)
      (hnow : plan.completion = true ∨ r.stability = .volatile)
      (hjournal : mutateJournal r.journal plan.journal = .ok journal) :
      Publication r plan (({ r with parked := none } : Replica J).installed plan journal,
        .ok (.published plan.candidate.revision plan.effects))

theorem publish_cases (r : Replica J) (plan : PlannedTransition) :
    r.Publication plan (r.publish plan) := by
  unfold publish
  split
  · exact .refused _ fun _ h => by cases h
  · by_cases hbase : plan.base ≠ r.progress.revision
    · rw [if_pos hbase]
      exact .refused _ fun _ h => by cases h
    · rw [if_neg hbase]
      rw [not_not] at hbase
      split
      · exact .faulted _
      · rename_i hfault
        split
        · exact .faulted _
        · rename_i hlegal
          by_cases hnow : plan.completion = true ∨ r.stability = .volatile
          · rw [if_pos hnow]
            unfold install
            simp only
            cases hjournal : mutateJournal r.journal plan.journal with
            | error error => exact .diverged error hlegal hjournal
            | ok journal => exact .published journal hbase hfault hlegal hnow hjournal
          · rw [if_neg hnow]
            rw [not_or] at hnow
            by_cases hparked : r.parked.isSome = true
            · rw [if_pos hparked]
              exact .refused _ fun _ h => by cases h
            · rw [if_neg hparked]
              exact .parked (by simpa using hnow.1) hnow.2 (by simpa using hparked)

/-- A published transition is an installed one, and it releases the effects of its plan. -/
theorem publish_published {r r' : Replica J} {plan : PlannedTransition} {revision : Nat}
    {released : List Effect} (h : r.publish plan = (r', .ok (.published revision released))) :
    ∃ journal, mutateJournal r.journal plan.journal = .ok journal ∧
      r' = ({ r with parked := none } : Replica J).installed plan journal ∧
      released = plan.effects := by
  have hpublish := publish_cases r plan
  rw [h] at hpublish
  cases hpublish with
  | published journal _ _ _ _ hjournal => exact ⟨journal, hjournal, rfl, rfl⟩

/-- **What one input can do**: nothing, a fault, a parked transition, or an installed one. -/
inductive StepOutcome (r : Replica J) (input : TimedInput) : Replica J × List Effect → Prop where
  | refused : StepOutcome r input (r, [])
  | faulted (fault : Fault) : StepOutcome r input (r.faultNode fault, [])
  /-- The journal refused the mutation of a legal transition. -/
  | diverged (plan : PlannedTransition) (hplan : r.plan input = .ok plan)
      (hlegal : legal r.progress.toProgressData plan.candidate.toProgressData plan.kind = none) :
      StepOutcome r input
        (({ r with parked := none } : Replica J).faultNode .progressJournalDivergence, [])
  | parked (plan : PlannedTransition) (hplan : r.plan input = .ok plan)
      (hfresh : plan.completion = false) (hstability : r.stability ≠ .volatile)
      (hnone : r.parked = none) :
      StepOutcome r input ({ r with parked := some (park plan) }, [.persist plan.intent])
  | published (plan : PlannedTransition) (journal : J) (hplan : r.plan input = .ok plan)
      (hbase : plan.base = r.progress.revision) (hfault : plan.fault = none)
      (hlegal : legal r.progress.toProgressData plan.candidate.toProgressData plan.kind = none)
      (hjournal : mutateJournal r.journal plan.journal = .ok journal) :
      StepOutcome r input (({ r with parked := none } : Replica J).installed plan journal,
        plan.effects)

theorem step_outcome (r : Replica J) (input : TimedInput) :
    StepOutcome r input (r.step input) := by
  unfold step
  cases hplan : r.plan input with
  | error refusal => exact .refused
  | ok plan =>
    have hpublish := publish_cases r plan
    simp only
    generalize r.publish plan = outcome at hpublish
    cases hpublish with
    | refused => exact .refused
    | faulted fault => exact .faulted fault
    | diverged error hlegal => exact .diverged plan hplan hlegal
    | parked hfresh hstability hnone => exact .parked plan hplan hfresh hstability hnone
    | published journal hbase hfault hlegal hnow hjournal =>
      exact .published plan journal hplan hbase hfault hlegal hjournal

/-- What an announcement comes down to: nothing, its own handling where the announcing node leads,
or a message to every backup. -/
theorem planReincarnate_ok {r : Replica J} {old : Nat} {kind : InputKind} {plan : PlannedTransition}
    (h : r.planReincarnate old kind = .ok plan) :
    r.dropPlan .none kind = .ok plan ∨
      ∃ announcement : Message, announcement.header.view = r.progress.current ∧
        announcement.body = .reincarnation old r.own r.progress.committed
          ((Journal.accepted r.journal).getD Slot.none) ∧
        old ≠ r.own ∧
        (r.isLeader = true ∧ r.planReincarnation r.own announcement kind = .ok plan ∨
          r.isLeader = false ∧
            r.emitPlan (sendAll r.backups r.progress.current.era announcement) kind =
              .ok plan) := by
  -- The node is seated or not; the branches behind it are the same.
  have hany : ∀ {announcement : Message} {seated : Bool},
      (if old = r.own ∨ seated = true then r.dropPlan .none kind
        else if r.isLeader then r.planReincarnation r.own announcement kind
        else r.emitPlan (sendAll r.backups r.progress.current.era announcement) kind) =
        .ok plan →
      r.dropPlan .none kind = .ok plan ∨ old ≠ r.own ∧
        (r.isLeader = true ∧ r.planReincarnation r.own announcement kind = .ok plan ∨
          r.isLeader = false ∧
            r.emitPlan (sendAll r.backups r.progress.current.era announcement) kind =
              .ok plan) := by
    intro announcement seated h
    split at h
    · exact .inl h
    · rename_i hold
      rw [not_or] at hold
      split at h
      · rename_i hleads
        exact .inr ⟨hold.1, .inl ⟨hleads, h⟩⟩
      · rename_i hleads
        exact .inr ⟨hold.1, .inr ⟨by simpa using hleads, h⟩⟩
  simp only [planReincarnate] at h
  split at h
  · cases h
  · rcases hany h with hdrop | hannounced
    · exact .inl hdrop
    · exact .inr ⟨_, rfl, rfl, hannounced⟩

/-- A transition that may take effect at once is installed. -/
theorem step_installs {s : Replica J} {input : TimedInput} {plan : PlannedTransition}
    (hplan : s.plan input = .ok plan) (hbase : plan.base = s.progress.revision)
    (hfault : plan.fault = none)
    (hlegal : legal s.progress.toProgressData plan.candidate.toProgressData plan.kind = none)
    (hdirect : plan.completion = true ∨ s.stability = .volatile) :
    s.step input =
      match mutateJournal s.journal plan.journal with
      | .error _ =>
        (({ s with parked := none } : Replica J).faultNode .progressJournalDivergence, [])
      | .ok journal => (({ s with parked := none } : Replica J).installed plan journal,
          plan.effects) := by
  unfold step publish install
  rw [hplan, (plan_gate hplan).1]
  simp only
  rw [if_neg (not_not.mpr hbase), hfault]
  simp only
  rw [hlegal]
  simp only
  rw [if_pos hdirect]
  cases mutateJournal s.journal plan.journal <;> rfl

theorem step_installs_ok {s : Replica J} {input : TimedInput} {plan : PlannedTransition}
    (hplan : s.plan input = .ok plan) (hbase : plan.base = s.progress.revision)
    (hfault : plan.fault = none)
    (hlegal : legal s.progress.toProgressData plan.candidate.toProgressData plan.kind = none)
    (hdirect : plan.completion = true ∨ s.stability = .volatile) {journal : J}
    (hjournal : mutateJournal s.journal plan.journal = .ok journal) :
    s.step input = (({ s with parked := none } : Replica J).installed plan journal,
      plan.effects) := by
  rw [step_installs hplan hbase hfault hlegal hdirect, hjournal]

theorem step_installs_error {s : Replica J} {input : TimedInput} {plan : PlannedTransition}
    (hplan : s.plan input = .ok plan) (hbase : plan.base = s.progress.revision)
    (hfault : plan.fault = none)
    (hlegal : legal s.progress.toProgressData plan.candidate.toProgressData plan.kind = none)
    (hdirect : plan.completion = true ∨ s.stability = .volatile) {error : JournalError}
    (hjournal : mutateJournal s.journal plan.journal = .error error) :
    s.step input = (({ s with parked := none } : Replica J).faultNode .progressJournalDivergence,
      []) := by
  rw [step_installs hplan hbase hfault hlegal hdirect, hjournal]

end Replica

end UvrrCore
