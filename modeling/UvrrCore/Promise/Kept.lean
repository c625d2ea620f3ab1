import UvrrCore.Replica.Arrivals

/-!
# What every planned transition keeps

`Kept` collects what holds of a plan whatever input it answers:

* its votes (acknowledgements, proposals, ordinary evidence) are at the ballot the replica
  holds or above it, its evidence at most at the ballot the candidate holds;
* an open attempt aims at the ballot the replica is fenced in, and a planned overlap is open at
  a serving replica only;
* a history is replaced only by entering another ballot or from outside normal operation.

The one exception to the last is a transferred chunk, which a serving replica takes as well:
`planNewState` keeps the other two (`Promising`).
-/

namespace UvrrCore

/-! ### Votes -/

/-- The ballot a message speaks for, when it is one of the kinds a promise is about. -/
def Message.vote (message : Message) : Option Ballot :=
  match message.body with
  | .prepare .. | .prepareOk | .fuse _ | .fuseOk _ | .doViewChange _ _ _ _ .ordinary _ =>
    some message.header.view
  | _ => none

/-- The ballot that ordinary evidence fences its sender into. -/
def Message.report (message : Message) : Option Ballot :=
  match message.body with
  | .doViewChange _ _ _ _ .ordinary _ => some message.header.view
  | _ => none

def Effect.vote : Effect → Option Ballot
  | .send _ _ message => message.vote
  | _ => none

def Effect.report : Effect → Option Ballot
  | .send _ _ message => message.report
  | _ => none

theorem Message.vote_of_report {message : Message} {ballot : Ballot}
    (h : message.report = some ballot) : message.vote = some ballot := by
  unfold Message.report at h
  unfold Message.vote
  cases hbody : message.body with
  | doViewChange retained accepted committed suffix evidence proof =>
    cases evidence with
    | ordinary => simpa only [hbody] using h
    | planned => simp only [hbody] at h; cases h
  | _ => simp only [hbody] at h; cases h

theorem Effect.vote_of_report {effect : Effect} {ballot : Ballot}
    (h : effect.report = some ballot) : effect.vote = some ballot := by
  cases effect with
  | send recipient era message => exact Message.vote_of_report h
  | _ => cases h

/-- **Votes at `low` or above, evidence at `high` or below.** -/
structure Fair (low high : Ballot) (effects : List Effect) : Prop where
  votes : ∀ effect ∈ effects, ∀ ballot, effect.vote = some ballot → low ≤ ballot
  reports : ∀ effect ∈ effects, ∀ ballot, effect.report = some ballot → ballot ≤ high

namespace Fair

variable {low high : Ballot}

theorem nil : Fair low high [] := ⟨by simp, by simp⟩

theorem append {xs ys : List Effect} (hx : Fair low high xs) (hy : Fair low high ys) :
    Fair low high (xs ++ ys) := by
  refine ⟨fun effect hmem => ?_, fun effect hmem => ?_⟩
  · rcases List.mem_append.mp hmem with hmem | hmem
    · exact hx.votes effect hmem
    · exact hy.votes effect hmem
  · rcases List.mem_append.mp hmem with hmem | hmem
    · exact hx.reports effect hmem
    · exact hy.reports effect hmem

theorem of_silent {xs : List Effect} (h : ∀ effect ∈ xs, effect.vote = none) :
    Fair low high xs := by
  refine ⟨fun effect hmem ballot hv => ?_, fun effect hmem ballot hr => ?_⟩
  · rw [h effect hmem] at hv
    cases hv
  · have hv := Effect.vote_of_report hr
    rw [h effect hmem] at hv
    cases hv

/-- A vote at the ballot the replica holds. -/
theorem of_current {xs : List Effect}
    (hvote : ∀ effect ∈ xs, effect.vote = some low ∧ effect.report = none) :
    Fair low high xs := by
  refine ⟨fun effect hmem ballot hv => ?_, fun effect hmem ballot hr => ?_⟩
  · rw [(hvote effect hmem).1, Option.some.injEq] at hv
    exact le_of_eq hv
  · rw [(hvote effect hmem).2] at hr
    cases hr

theorem cons {effect : Effect} {xs : List Effect} (hone : Fair low high [effect])
    (hx : Fair low high xs) : Fair low high (effect :: xs) := hone.append hx

end Fair

theorem sendAll_silent {recipients : List Nat} {era : Nat} {message : Message}
    (h : message.vote = none) :
    ∀ effect ∈ Replica.sendAll recipients era message, effect.vote = none := by
  intro effect hmem
  obtain ⟨recipient, -, rfl⟩ := mem_sendAll hmem
  exact h

theorem applyRange_silent {read : Nat → Option LogEntry} {left slot : Nat}
    {effects : List Effect} (h : applyRange read left slot = .ok effects) :
    ∀ effect ∈ effects, effect.vote = none := by
  intro effect hmem
  obtain ⟨_, _, _, _, rfl, -⟩ := applyRange_mem h hmem
  rfl

/-! ### The shape of a replica between transitions -/

/-- An open attempt aims at the ballot the replica is fenced in; a planned overlap is a serving
replica's. -/
structure ComposedOf (viewChange : Option ViewChangeVolatile) (planned : Option PlannedOverlap)
    (record : ProgressData) : Prop where
  attempt : ∀ attempt, viewChange = some attempt →
    attempt.target = record.current ∧ record.status = .viewChange
  overlap : planned.isSome → record.status = .normal

namespace Replica

variable {J : Type}

def Composed (r : Replica J) : Prop :=
  ComposedOf r.viewChange r.planned r.progress.toProgressData

theorem Composed.no_attempt {r : Replica J} (hr : r.Composed)
    (h : r.progress.status ≠ .viewChange) : r.viewChange = none := by
  cases hv : r.viewChange with
  | none => rfl
  | some attempt => exact absurd (hr.attempt attempt hv).2 h

/-- The records the volatile state stays composed with when it is left alone. -/
def Follows (r : Replica J) (record : ProgressData) : Prop :=
  (record.current = r.progress.current ∧ record.status = r.progress.status) ∨
    (r.progress.status ≠ .viewChange ∧ (r.progress.status = .normal → record.status = .normal))

theorem Composed.follows {r : Replica J} (hr : r.Composed) {record : ProgressData}
    (h : r.Follows record) : ComposedOf r.viewChange r.planned record := by
  rcases h with ⟨hcurrent, hstatus⟩ | ⟨hfenced, hserving⟩
  · refine ⟨fun attempt hv => ?_, fun hp => ?_⟩
    · rw [hcurrent, hstatus]
      exact hr.attempt attempt hv
    · rw [hstatus]
      exact hr.overlap hp
  · refine ⟨fun attempt hv => ?_, fun hp => hserving (hr.overlap hp)⟩
    rw [hr.no_attempt hfenced] at hv
    cases hv

theorem follows_same {r : Replica J} {candidate : Progress} (h : r.SameRecord candidate) :
    r.Follows candidate.toProgressData := by
  left
  rw [h]
  exact ⟨rfl, rfl⟩

/-! ### Plans -/

/-- **The promises of a plan.** -/
structure Promising (r : Replica J) (plan : PlannedTransition) : Prop where
  composed : ComposedOf (plan.bookkeeping.viewChange.applyTo r.viewChange)
    (plan.bookkeeping.planned.applyTo r.planned) plan.candidate.toProgressData
  fair : Fair r.progress.current plan.candidate.current plan.effects

/-- **What every handler but the one of transferred chunks keeps.** -/
structure Kept (r : Replica J) (plan : PlannedTransition) : Prop extends Promising r plan where
  replaces : ∀ start suffix, plan.journal = .installSuffix start suffix →
    r.progress.status ≠ .normal ∨ plan.candidate.current ≠ r.progress.current

/-- A plan that leaves the view change and the overlap alone and does not replace a history. -/
theorem Composed.kept {r : Replica J} (hr : r.Composed) {plan : PlannedTransition}
    (hview : plan.bookkeeping.viewChange = .unchanged)
    (hplanned : plan.bookkeeping.planned = .unchanged)
    (hfollows : r.Follows plan.candidate.toProgressData)
    (hfair : Fair r.progress.current plan.candidate.current plan.effects)
    (hjournal : ∀ start suffix, plan.journal ≠ .installSuffix start suffix) : Kept r plan := by
  refine ⟨⟨?_, hfair⟩, fun start suffix h => absurd h (hjournal start suffix)⟩
  rw [hview, hplanned]
  exact hr.follows hfollows

/-- The same promises with other volatile records, and with effects that vote for nothing. -/
theorem Kept.of_eq {r : Replica J} {plan plan' : PlannedTransition} (h : Kept r plan)
    (hcandidate : plan'.candidate = plan.candidate) (hjournal : plan'.journal = plan.journal)
    (hview : plan'.bookkeeping.viewChange = plan.bookkeeping.viewChange)
    (hplanned : plan'.bookkeeping.planned = plan.bookkeeping.planned)
    (hfair : Fair r.progress.current plan.candidate.current plan.effects →
      Fair r.progress.current plan.candidate.current plan'.effects) : Kept r plan' := by
  refine ⟨⟨?_, ?_⟩, fun start suffix hi => ?_⟩
  · rw [hcandidate, hview, hplanned]
    exact h.composed
  · rw [hcandidate]
    exact hfair h.fair
  · rw [hcandidate]
    exact h.replaces start suffix (hjournal ▸ hi)

theorem Kept.withDiagnostic {r : Replica J} {plan : PlannedTransition} (h : Kept r plan)
    (diagnostic : Diagnostic) : Kept r (plan.withDiagnostic diagnostic) :=
  h.of_eq rfl rfl rfl rfl id

theorem Kept.withActivity {r : Replica J} {plan : PlannedTransition} (h : Kept r plan)
    (tick : Nat) : Kept r (plan.withActivity tick) := h.of_eq rfl rfl rfl rfl id

theorem Kept.withWitness {r : Replica J} {plan : PlannedTransition} (h : Kept r plan)
    (node : Nat) : Kept r (plan.withWitness node) := h.of_eq rfl rfl rfl rfl id

theorem Kept.withReincarnation {r : Replica J} {plan : PlannedTransition} (h : Kept r plan)
    (update : Update ForcedSequence) : Kept r (plan.withReincarnation update) :=
  h.of_eq rfl rfl rfl rfl id

theorem Kept.withPlanExecution {r : Replica J} {plan : PlannedTransition} (h : Kept r plan)
    (update : Update PlannedSequence) : Kept r (plan.withPlanExecution update) :=
  h.of_eq rfl rfl rfl rfl id

theorem Kept.withStalledOffer {r : Replica J} {plan : PlannedTransition} (h : Kept r plan)
    (sender : Nat) (message : Message) : Kept r (plan.withStalledOffer sender message) :=
  h.of_eq rfl rfl rfl rfl id

theorem fetch_silent (view : Ballot) (recipient start : Nat) :
    (fetch view recipient start).1.vote = none := rfl

theorem Kept.withFetch {r : Replica J} {plan : PlannedTransition} (h : Kept r plan)
    (view : Ballot) (recipient start : Nat) :
    Kept r (plan.withFetch (fetch view recipient start)) :=
  h.of_eq rfl rfl rfl rfl fun hfair => hfair.append (Fair.of_silent (by simp [fetch_silent]))

theorem Kept.withAdminResponse {r : Replica J} {plan : PlannedTransition} (h : Kept r plan)
    (verdict : PlanVerdict) : Kept r (plan.withEffect (.adminResponse verdict)) :=
  h.of_eq rfl rfl rfl rfl fun hfair => hfair.append (Fair.of_silent (by simp [Effect.vote]))

section Plain

variable {r : Replica J} {plan : PlannedTransition} {kind : InputKind}

theorem emitPlan_kept {effects : List Effect} (hr : r.Composed)
    (h : r.emitPlan effects kind = .ok plan)
    (hfair : Fair r.progress.current r.progress.current effects) : Kept r plan := by
  obtain ⟨candidate, hsame, rfl⟩ := emitPlan_ok h
  have hcurrent : candidate.current = r.progress.current := by rw [hsame]
  refine hr.kept rfl rfl (follows_same hsame) ?_ (by simp [candidatePlan])
  show Fair r.progress.current candidate.current effects
  rw [hcurrent]
  exact hfair

theorem dropPlan_kept {diagnostic : Diagnostic} (hr : r.Composed)
    (h : r.dropPlan diagnostic kind = .ok plan) : Kept r plan := by
  obtain ⟨candidate, hsame, rfl⟩ := dropPlan_ok h
  exact hr.kept rfl rfl (follows_same hsame) Fair.nil
    (by simp [candidatePlan, PlannedTransition.withDiagnostic])

theorem breachPlan_kept (hr : r.Composed) (h : r.breachPlan kind = .ok plan) : Kept r plan := by
  obtain ⟨candidate, hsame, rfl⟩ := breachPlan_ok h
  exact hr.kept rfl rfl (follows_same hsame) Fair.nil
    (by simp [candidatePlan, PlannedTransition.withFaultDeclared])

end Plain

/-! ### View changes -/

section ViewChange

variable {r : Replica J} {kind : InputKind} {time : Nat}

theorem doViewChangeEffect_ok {own : Evidence} {target : Ballot} {effect : Effect}
    (h : r.doViewChangeEffect own target = .ok effect) :
    effect.vote = some target ∧ effect.report = some target := by
  unfold doViewChangeEffect at h
  split at h
  · cases h
  · obtain ⟨proof, -, h⟩ := bind_eq_ok.mp h
    rw [← pure_eq_ok.mp h]
    exact ⟨rfl, rfl⟩

/-- The attempt that is kept open is composed with its candidate. -/
theorem keepAttempt_kept {candidate : Progress} {attempt : ViewChangeVolatile}
    {effects : List Effect} (hcurrent : candidate.current = attempt.target)
    (hstatus : candidate.status = .viewChange)
    (hfair : Fair r.progress.current attempt.target effects) :
    Kept r (r.keepAttempt candidate attempt effects kind) := by
  refine ⟨⟨⟨fun other hother => ?_, fun hp => by cases hp⟩, ?_⟩, fun start suffix h => by cases h⟩
  · rw [← Option.some.inj hother]
    exact ⟨hcurrent.symm, hstatus⟩
  · show Fair _ candidate.current effects
    rw [hcurrent]
    exact hfair

theorem selectOnQuorum_target (config : Configuration) (attempt : ViewChangeVolatile) :
    (r.selectOnQuorum config attempt).target = attempt.target := by
  unfold selectOnQuorum
  split
  · rfl
  · split <;> rfl

theorem planUnevaluableOffer_kept (hr : r.Composed) {sender : Nat} {message : Message}
    {proof : EraProof} {plan : PlannedTransition}
    (h : r.planUnevaluableOffer sender message proof kind = .ok plan) : Kept r plan := by
  obtain ⟨drop, hdrop, rfl | rfl | ⟨next, rfl⟩⟩ := planUnevaluableOffer_ok h
  · exact dropPlan_kept hr hdrop
  · exact (dropPlan_kept hr hdrop).withStalledOffer _ _
  · exact ((dropPlan_kept hr hdrop).withStalledOffer _ _).withFetch _ _ _

variable [Journal J]

theorem recordOwnEvidence_ok {config : Configuration} {attempt attempt' : ViewChangeVolatile}
    {effects effects' : List Effect}
    (h : r.recordOwnEvidence config attempt effects = .ok (attempt', effects')) :
    attempt'.target = attempt.target ∧
      (effects' = effects ∨ ∃ report, effects' = effects ++ [report] ∧
        report.vote = some attempt.target ∧ report.report = some attempt.target) := by
  unfold recordOwnEvidence at h
  split at h
  · cases h
    exact ⟨rfl, Or.inl rfl⟩
  · split at h
    · cases h
      exact ⟨rfl, Or.inl rfl⟩
    · simp only at h
      split at h
      · cases h
        exact ⟨rfl, Or.inl rfl⟩
      · obtain ⟨report, hreport, h⟩ := bind_eq_ok.mp h
        obtain ⟨rfl, rfl⟩ := Prod.mk.inj (pure_eq_ok.mp h)
        exact ⟨rfl, Or.inr ⟨report, rfl, doViewChangeEffect_ok hreport⟩⟩

theorem startViewEffects_silent {target : Ballot} {selected : Evidence} {committed : Nat}
    {effects : List Effect} (h : r.startViewEffects target selected committed = .ok effects) :
    ∀ effect ∈ effects, effect.vote = none := by
  obtain ⟨proof, -, h⟩ := bind_eq_ok.mp h
  rw [← pure_eq_ok.mp h]
  exact sendAll_silent rfl

/-- A win installs the target, or keeps the replica where it is. -/
theorem planWinView_kept (hr : r.Composed) {target : Ballot} {selected : Evidence}
    {evidence : OrdMap Nat Evidence} {effects : List Effect} {plan : PlannedTransition}
    (hfair : Fair r.progress.current target effects)
    (hnew : r.progress.status ≠ .normal ∨ target ≠ r.progress.current)
    (h : r.planWinView target selected evidence effects time kind = .ok (.installed plan)) :
    Kept r plan := by
  simp only [planWinView] at h
  split at h
  · cases h
  · split at h
    · cases h
    · obtain ⟨breach, hbreach, h⟩ := bind_eq_ok.mp h
      cases pure_eq_ok.mp h
      exact breachPlan_kept hr hbreach
    · obtain ⟨applied, -, h⟩ := bind_eq_ok.mp h
      split at h
      · cases h
      · obtain ⟨drop, hdrop, h⟩ := bind_eq_ok.mp h
        cases pure_eq_ok.mp h
        exact dropPlan_kept hr hdrop
      · obtain ⟨breach, hbreach, h⟩ := bind_eq_ok.mp h
        cases pure_eq_ok.mp h
        exact breachPlan_kept hr hbreach
      · obtain ⟨candidate, hcandidate, h⟩ := bind_eq_ok.mp h
        obtain ⟨applies, happlies, h⟩ := bind_eq_ok.mp h
        obtain ⟨announcements, hannounce, h⟩ := bind_eq_ok.mp h
        cases pure_eq_ok.mp h
        have hrecord := installCandidate_ok hcandidate
        have hcurrent : candidate.current = target := by rw [hrecord]; rfl
        refine ⟨⟨⟨fun attempt hv => (by cases hv), fun hp => (by cases hp)⟩, ?_⟩, fun _ _ _ => ?_⟩
        · show Fair _ candidate.current (effects ++ applies ++ announcements)
          rw [hcurrent]
          exact (hfair.append (Fair.of_silent (applyRange_silent happlies))).append
            (Fair.of_silent (startViewEffects_silent hannounce))
        · rw [show (PlannedTransition.candidate _) = candidate from rfl, hcurrent]
          exact hnew

theorem continueViewChange_kept (hr : r.Composed) {candidate : Progress}
    {attempt : ViewChangeVolatile} {effects : List Effect} {plan : PlannedTransition}
    (hcurrent : candidate.current = attempt.target) (hstatus : candidate.status = .viewChange)
    (hahead : r.progress.current ≤ attempt.target)
    (hnew : r.progress.status ≠ .normal ∨ attempt.target ≠ r.progress.current)
    (hsilent : ∀ effect ∈ effects, effect.vote = none)
    (h : r.continueViewChange candidate attempt effects time kind = .ok plan) : Kept r plan := by
  simp only [continueViewChange] at h
  split at h
  · exact dropPlan_kept hr h
  · rename_i record _
    obtain ⟨⟨recorded, effects'⟩, hrecorded, h⟩ := bind_eq_ok.mp h
    obtain ⟨htarget, heffects⟩ := recordOwnEvidence_ok hrecorded
    have hfair : Fair r.progress.current attempt.target effects' := by
      rcases heffects with rfl | ⟨report, rfl, hvote, hreport⟩
      · exact Fair.of_silent hsilent
      · refine (Fair.of_silent hsilent).append ⟨fun effect hmem ballot hv => ?_,
          fun effect hmem ballot hv => ?_⟩
        · rw [List.mem_singleton.mp hmem, hvote, Option.some.injEq] at hv
          exact hv ▸ hahead
        · rw [List.mem_singleton.mp hmem, hreport, Option.some.injEq] at hv
          exact le_of_eq hv.symm
    simp only at h
    split at h
    · have hselect : (r.selectOnQuorum record.config recorded).target = attempt.target :=
        (selectOnQuorum_target _ _).trans htarget
      split at h
      · cases pure_eq_ok.mp h
        exact keepAttempt_kept (hcurrent.trans hselect.symm) hstatus (by rw [hselect]; exact hfair)
      · obtain ⟨outcome, houtcome, h⟩ := bind_eq_ok.mp h
        split at h
        · cases pure_eq_ok.mp h
          exact planWinView_kept hr hfair hnew houtcome
        · rename_i expected got effects''
          rw [planWinView_insufficient houtcome] at h
          have hkeep : Kept r (r.keepAttempt candidate
              (r.selectOnQuorum record.config recorded) effects' kind) :=
            keepAttempt_kept (hcurrent.trans hselect.symm) hstatus (by rw [hselect]; exact hfair)
          split at h
          · cases pure_eq_ok.mp h
            exact (hkeep.withDiagnostic _).withFetch _ _ _
          · cases pure_eq_ok.mp h
            exact hkeep.withDiagnostic _
    · cases pure_eq_ok.mp h
      exact keepAttempt_kept (hcurrent.trans htarget.symm) hstatus (by rw [htarget]; exact hfair)

theorem enterViewChange_kept (hr : r.Composed) {target : Ballot} {heard : OrdMap Nat Unit}
    {plan : PlannedTransition} (h : r.enterViewChange target heard time kind = .ok plan) :
    Kept r plan := by
  obtain ⟨candidate, hcandidate, h⟩ := bind_eq_ok.mp h
  obtain ⟨hsucc, hrecord⟩ := withViewChange_ok (asCandidate_eq_ok.mp hcandidate)
  have hlt := Ballot.lt_of_isLegalSuccessor hsucc
  exact continueViewChange_kept hr (by rw [hrecord]) (by rw [hrecord]) (le_of_lt hlt)
    (Or.inr (ne_of_gt hlt)) (sendAll_silent rfl) h

theorem planAdminForceView_kept (hr : r.Composed) {target : Ballot} {plan : PlannedTransition}
    (h : r.planAdminForceView target time = .ok plan) : Kept r plan := by
  simp only [planAdminForceView] at h
  split at h
  · cases h
  · split at h
    · cases h
    · split at h
      · cases h
      · exact enterViewChange_kept hr h

/-- An open attempt carried on in the ballot it fences. -/
theorem continueOpen_kept (hr : r.Composed) {open_ attempt : ViewChangeVolatile}
    (hopen : r.viewChange = some open_) (htarget : attempt.target = open_.target)
    {plan : PlannedTransition}
    (h : (do
      let candidate ← r.identityCandidate
      r.continueViewChange candidate attempt [] time kind) = .ok plan) : Kept r plan := by
  obtain ⟨candidate, hcandidate, h⟩ := bind_eq_ok.mp h
  obtain ⟨haim, hfenced⟩ := hr.attempt open_ hopen
  have hrecord := identityCandidate_ok hcandidate
  have haim' : attempt.target = r.progress.current := htarget.trans haim
  refine continueViewChange_kept hr ?_ ?_ (le_of_eq haim'.symm) (Or.inl ?_) (by simp) h
  · rw [haim', hrecord]
  · rw [hrecord]
    exact hfenced
  · rw [hfenced]
    decide

theorem planStartViewChange_kept (hr : r.Composed) {sender : Nat} {message : Message}
    {plan : PlannedTransition} (h : r.planStartViewChange sender message time kind = .ok plan) :
    Kept r plan := by
  simp only [planStartViewChange] at h
  split at h
  · exact dropPlan_kept hr h
  · split at h
    · exact dropPlan_kept hr h
    · split at h
      · split at h
        · exact dropPlan_kept hr h
        · exact enterViewChange_kept hr h
      · rename_i attempt hopen
        split at h
        · exact dropPlan_kept hr h
        · split at h
          · exact enterViewChange_kept hr h
          · exact continueOpen_kept hr hopen
              (show ({ attempt with fences := attempt.fences.insert sender () } :
                ViewChangeVolatile).target = attempt.target from rfl) h

theorem planOrdinaryEvidence_kept (hr : r.Composed) {sender : Nat} {message : Message}
    {evidence : Evidence} {proof : EraProof} {plan : PlannedTransition}
    (h : r.planOrdinaryEvidence sender message evidence proof time kind = .ok plan) :
    Kept r plan := by
  simp only [planOrdinaryEvidence] at h
  split at h
  · exact dropPlan_kept hr h
  · split at h
    · exact dropPlan_kept hr h
    · split at h
      · exact dropPlan_kept hr h
      · split at h
        · exact dropPlan_kept hr h
        · rename_i attempt hopen
          split at h
          · exact dropPlan_kept hr h
          · split at h
            · exact dropPlan_kept hr h
            · exact continueOpen_kept hr hopen
                (show ({ attempt with
                    evidence := collectEvidence attempt.evidence sender evidence } :
                  ViewChangeVolatile).target = attempt.target from rfl) h

theorem planStartView_kept (hr : r.Composed) {sender : Nat} {message : Message}
    {suffix : List LogEntry} {accepted committed : Nat} {proof : EraProof}
    {plan : PlannedTransition}
    (h : r.planStartView sender message suffix accepted committed proof time kind = .ok plan) :
    Kept r plan := by
  cases planStartView_cases h with
  | unevaluable _ hoffer => exact planUnevaluableOffer_kept hr hoffer
  | dropped _ hdrop => exact dropPlan_kept hr hdrop
  | breached hbreach => exact breachPlan_kept hr hbreach
  | gap expected got drop hdrop hplan =>
    subst hplan
    exact ((dropPlan_kept hr hdrop).withFetch _ _ _).withStalledOffer _ _
  | installed record _ _ _ hadopts _ mutation _ applied _ folded _ candidate hcandidate effects
      happlies hplan =>
    subst hplan
    have hcurrent : candidate.current = message.header.view := by
      rw [installCandidate_ok hcandidate]
      rfl
    refine ⟨⟨⟨fun attempt hv => (by cases hv), fun hp => (by cases hp)⟩,
      Fair.of_silent (applyRange_silent happlies)⟩, fun _ _ _ => ?_⟩
    rw [show (PlannedTransition.candidate _) = candidate from rfl, hcurrent]
    rcases hadopts with hlt | ⟨-, hfenced⟩
    · exact Or.inr (ne_of_gt hlt)
    · left
      rw [hfenced]
      decide

end ViewChange

end Replica

end UvrrCore
