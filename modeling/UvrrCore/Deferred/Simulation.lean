import UvrrCore.Deferred.Oblivious
import UvrrCore.Reached
import UvrrCore.Trace

/-!
# Deferred stability simulates volatile stability

In an external stability mode a transition is parked until the host confirms that its intent is
persistent. A host that confirms every intent before the next input sees what it would have seen
of the volatile replica, intents apart; an outstanding intent keeps everything as it was; and a
failed one is forgotten. Forgotten, that is, if no registered witness has a vote: the list of
witnesses drops its voters with every installed transition, and the startup registration lets
voters in.
-/

namespace UvrrCore

def Effect.isPersist : Effect → Bool
  | .persist _ => true
  | .send _ _ _ | .apply _ _ _ | .adminResponse _ => false

/-- The intent among released effects. -/
def persistIntent (effects : List Effect) : Option PersistenceIntent :=
  effects.findSome? fun effect =>
    match effect with
    | .persist intent => some intent
    | _ => none

/-- The host's word that an intent is persistent. -/
structure Confirmation where
  time : Nat
  receipt : List UInt8

/-- What is seen of a replica after an input, intents apart. -/
structure Seen (J : Type) where
  progress : Progress
  journal : J
  released : List Effect

namespace Replica

variable {J : Type}

def seen (out : Replica J × List Effect) : Seen J where
  progress := out.1.progress
  journal := out.1.journal
  released := out.2.filter fun effect => !effect.isPersist

/-- The replica run volatile. -/
abbrev volatile (r : Replica J) : Replica J := r.withStability .volatile

/-- No registered witness has a vote in the newest committed configuration. -/
def NamesNoVoter (r : Replica J) : Prop := ∀ witness ∈ r.witnesses, r.isVoter witness = false

/-- Another record, one revision on and otherwise the same. What observers read of the last
publication is no part of it. -/
def AsBefore (r r' : Replica J) : Prop :=
  ∃ (progress : Progress) (diagnostic : Diagnostic), r.SameRecord progress ∧
    r' = { r with progress := progress, diagnostic := diagnostic }

variable [Journal J]

/-- One input, and the confirmation of the intent it released, if it released one. -/
def stepStable (r : Replica J) (input : TimedInput × Confirmation) : Replica J × List Effect :=
  match r.step input.1 with
  | (r', effects) =>
    match persistIntent effects with
    | none => (r', effects)
    | some intent =>
      match r'.step
          { time := input.2.time
            event := .stabilityConfirmation intent.revision (.stable input.2.receipt) } with
      | (r'', more) => (r'', effects ++ more)

/-- What holds while the intent of an input to `r` is outstanding: everything visible is as
before, ordinary inputs do nothing, and no other plan is published. -/
structure Outstanding (r s : Replica J) : Prop where
  progress : s.progress = r.progress
  journal : s.journal = r.journal
  ordinary : ∀ input : TimedInput,
    (∀ revision result, input.event ≠ .stabilityConfirmation revision result) →
    s.step input = (s, [])
  unpublished : ∀ (plan : PlannedTransition) (revision : Nat) (effects : List Effect),
    plan.completion = false → (s.publish plan).2 ≠ .ok (.published revision effects)

/-- **Deferred stability is as good as volatile**, from a replica on: confirmed it looks the
same, outstanding it keeps everything, failed it leaves everything as before. -/
structure DeferredStability (r : Replica J) : Prop where
  simulates : ∀ inputs : List (TimedInput × Confirmation),
    (Machine.trace stepStable r inputs).map seen =
      (Machine.trace step r.volatile (inputs.map Prod.fst)).map seen
  outstanding : ∀ (inputs : List (TimedInput × Confirmation)) (input : TimedInput)
    (s : Replica J) (intent : PersistenceIntent),
    (Machine.run stepStable r inputs).step input = (s, [.persist intent]) →
    Outstanding (Machine.run stepStable r inputs) s
  failed : ∀ (inputs : List (TimedInput × Confirmation)) (input : TimedInput) (s : Replica J)
    (intent : PersistenceIntent) (time : Nat) (reason : List UInt8),
    (Machine.run stepStable r inputs).step input = (s, [.persist intent]) →
    AsBefore (Machine.run stepStable r inputs)
      (s.step
        { time := time
          event := .stabilityConfirmation intent.revision (.failed reason) }).1

/-! ### One input and its confirmation -/

/-- A replica that waits for no confirmation and is not volatile. -/
structure Idle (r : Replica J) : Prop where
  unparked : r.parked = none
  external : r.stability ≠ .volatile

/-- **The two runs of one input**: confirmed in the external mode, and volatile. -/
inductive Confirmed (r : Replica J) : Replica J × List Effect → Replica J × List Effect → Prop
  | refused : Confirmed r (r, []) (r.volatile, [])
  | faulted (fault : Fault) :
      Confirmed r (r.faultNode fault, []) ((r.faultNode fault).volatile, [])
  | diverged (intent : PersistenceIntent) :
      Confirmed r (r.faultNode .progressJournalDivergence, [.persist intent])
        ((r.faultNode .progressJournalDivergence).volatile, [])
  | installed (plan : PlannedTransition) (journal : J) :
      Confirmed r (r.installed plan journal, .persist plan.intent :: plan.effects)
        ((r.installed plan journal).volatile, plan.effects)

omit [Journal J] in
theorem Idle.unpark {r : Replica J} (h : r.parked = none) : { r with parked := none } = r := by
  cases r
  simp only at h
  rw [h]

omit [Journal J] in
theorem faultNode_withStability (r : Replica J) (fault : Fault) (stability : Stability) :
    (r.withStability stability).faultNode fault =
      (r.faultNode fault).withStability stability := by
  unfold faultNode withStability
  simp only
  split <;> rfl

/-- **What an input to an idle replica comes to**: it is parked, or nothing but a fault. -/
inductive Deferral (r : Replica J) (input : TimedInput) : Replica J × List Effect → Prop
  | refused (hvolatile : r.volatile.step input = (r.volatile, [])) : Deferral r input (r, [])
  | faulted (fault : Fault)
      (hvolatile : r.volatile.step input = ((r.faultNode fault).volatile, [])) :
      Deferral r input (r.faultNode fault, [])
  | parked (plan : PlannedTransition) (hplan : r.plan input = .ok plan)
      (hdrafted : r.Drafted (r.givenOf input) plan) (hfault : plan.fault = none)
      (hlegal : legal r.progress.toProgressData plan.candidate.toProgressData plan.kind = none) :
      Deferral r input ({ r with parked := some (park plan) }, [.persist plan.intent])

/-- What a step with a plan does is to publish it. -/
theorem step_of_plan {r : Replica J} {input : TimedInput} {plan : PlannedTransition}
    (h : r.plan input = .ok plan) :
    r.step input =
      match r.publish plan with
      | (r', .error _) => (r', [])
      | (r', .ok (.published _ effects)) => (r', effects)
      | (r', .ok (.parked _ effects)) => (r', effects) := by
  unfold step
  cases hplan : r.plan input with
  | error refusal =>
    rw [h] at hplan
    cases hplan
  | ok planned =>
    rw [h] at hplan
    cases hplan
    rfl

theorem Idle.deferral {r : Replica J} (h : r.Idle) (input : TimedInput) :
    Deferral r input (r.step input) := by
  have hoblivious : r.volatile.plan input = r.plan input := plan_stability r .volatile input
  unfold step
  cases hplan : r.plan input with
  | error refusal =>
    refine .refused ?_
    unfold step
    rw [hoblivious, hplan]
  | ok plan =>
    obtain ⟨hfault, -⟩ := plan_gate hplan
    have hdrafted := plan_drafted (fresh_of_unparked h.unparked hplan) hplan
    have hvolatile := step_of_plan (hoblivious.trans hplan)
    have hfault' : r.volatile.progress.fault = none := hfault
    unfold publish at hvolatile ⊢
    rw [hfault] 
    rw [hfault'] at hvolatile
    simp only at hvolatile ⊢
    rw [if_neg (not_not.mpr hdrafted.base)]
    rw [if_neg (not_not.mpr (show plan.base = r.volatile.progress.revision from hdrafted.base))]
      at hvolatile
    cases hdeclared : plan.fault with
    | some fault =>
      rw [hdeclared] at hvolatile
      refine .faulted fault ?_
      rw [hvolatile]
      simp only [faultNode_withStability]
    | none =>
      rw [hdeclared] at hvolatile
      simp only at hvolatile ⊢
      cases hlegal : legal r.progress.toProgressData plan.candidate.toProgressData plan.kind with
      | some fault =>
        have hlegal' : legal r.volatile.progress.toProgressData plan.candidate.toProgressData
            plan.kind = some fault := hlegal
        rw [hlegal'] at hvolatile
        refine .faulted fault ?_
        rw [hvolatile]
        simp only [faultNode_withStability]
      | none =>
        simp only
        rw [if_neg (by simp [hdrafted.fresh, h.external]), if_neg (by simp [h.unparked])]
        exact .parked plan hplan hdrafted hdeclared hlegal

/-- A confirmation of the outstanding intent is planned. -/
theorem plan_confirmation {r : Replica J} {input : TimedInput} {plan : PlannedTransition}
    (hplan : r.plan input = .ok plan) {given : Given} (hdrafted : r.Drafted given plan) (time : Nat)
    (result : StabilityResult) :
    ({ r with parked := some (park plan) } : Replica J).plan
        { time := time, event := .stabilityConfirmation plan.intent.revision result } =
      ({ r with parked := some (park plan) } : Replica J).planConfirmation plan.base result := by
  obtain ⟨hfault, hfrontier⟩ := plan_gate hplan
  rw [hdrafted.intent, hdrafted.base]
  unfold Replica.plan
  simp only
  rw [hfault]
  simp only
  rw [if_neg (not_not.mpr hfrontier)]

/-- **One input and its confirmation** do what the volatile replica does at once. -/
theorem Idle.confirmed {r : Replica J} (h : r.Idle) (input : TimedInput × Confirmation) :
    Confirmed r (r.stepStable input) (r.volatile.step input.1) := by
  have hdeferral := h.deferral input.1
  unfold stepStable
  generalize hout : r.step input.1 = out at hdeferral
  cases hdeferral with
  | refused hvolatile =>
    rw [hvolatile]
    exact .refused
  | faulted fault hvolatile =>
    rw [hvolatile]
    exact .faulted fault
  | parked plan hplan hdrafted hfault hlegal =>
    have hunpark := Idle.unpark h.unparked
    have hsame := (plan_stability r .volatile input.1).trans hplan
    have hconfirmed : ({ r with parked := some (park plan) } : Replica J).plan
        { time := input.2.time
          event := .stabilityConfirmation plan.intent.revision (.stable input.2.receipt) } =
        .ok (((r.candidatePlan plan.candidate plan.journal plan.effects plan.kind
          true).withBookkeeping plan.bookkeeping).withDiagnostic plan.diagnostic) := by
      rw [plan_confirmation hplan hdrafted]
      unfold planConfirmation
      simp only [park, ne_eq, not_true_eq_false, if_false]
      rfl
    simp only [persistIntent, List.findSome?_cons]
    cases hjournal : mutateJournal r.journal plan.journal with
    | error error =>
      rw [step_installs_error hsame hdrafted.base hfault hlegal (Or.inr rfl) hjournal,
        step_installs_error hconfirmed rfl rfl hlegal (Or.inl rfl) hjournal]
      show Confirmed r
        (({ r with parked := none } : Replica J).faultNode .progressJournalDivergence,
          [Effect.persist plan.intent])
        (({ r with parked := none } : Replica J).volatile.faultNode .progressJournalDivergence, [])
      rw [hunpark, faultNode_withStability]
      exact .diverged plan.intent
    | ok journal =>
      rw [step_installs_ok hsame hdrafted.base hfault hlegal (Or.inr rfl) hjournal,
        step_installs_ok hconfirmed rfl rfl hlegal (Or.inl rfl) hjournal]
      show Confirmed r
        (({ r with parked := none } : Replica J).installed plan journal,
          [Effect.persist plan.intent] ++ plan.effects)
        (({ r with parked := none } : Replica J).volatile.installed plan journal, plan.effects)
      rw [hunpark]
      exact .installed plan journal

/-! ### Runs -/

omit [Journal J] in
theorem Idle.faultNode {r : Replica J} (h : r.Idle) (fault : Fault) : (r.faultNode fault).Idle := by
  rcases faultNode_cases r fault with heq | ⟨progress, heq, -⟩
  · rw [heq]
    exact h
  · rw [heq]
    exact ⟨h.unparked, h.external⟩

theorem Idle.stepStable {r : Replica J} (h : r.Idle) (input : TimedInput × Confirmation) :
    (r.stepStable input).1.Idle := by
  have hconfirmed := h.confirmed input
  generalize r.stepStable input = out at hconfirmed
  generalize r.volatile.step input.1 = out' at hconfirmed
  cases hconfirmed with
  | refused => exact h
  | faulted fault => exact h.faultNode fault
  | diverged intent => exact h.faultNode _
  | installed plan journal => exact ⟨h.unparked, h.external⟩

/-- **The simulation**: confirmed and volatile, an input does the same. -/
theorem Idle.simulates {r : Replica J} (h : r.Idle) (inputs : List (TimedInput × Confirmation)) :
    (Machine.trace Replica.stepStable r inputs).map seen =
      (Machine.trace step r.volatile (inputs.map Prod.fst)).map seen := by
  refine Machine.trace_simulates (R := fun s t => s.Idle ∧ t = s.volatile) ?_ ⟨h, rfl⟩ inputs
  rintro s t input ⟨hidle, rfl⟩
  have hnext := hidle.stepStable input
  have hconfirmed := hidle.confirmed input
  generalize s.stepStable input = out at hconfirmed hnext
  generalize s.volatile.step input.1 = out' at hconfirmed
  cases hconfirmed with
  | refused => exact ⟨⟨hnext, rfl⟩, rfl⟩
  | faulted fault => exact ⟨⟨hnext, rfl⟩, rfl⟩
  | diverged intent => exact ⟨⟨hnext, rfl⟩, rfl⟩
  | installed plan journal => exact ⟨⟨hnext, rfl⟩, rfl⟩

/-- What a parked transition is, from the step that parked it. -/
theorem Idle.parks {r : Replica J} (h : r.Idle) {input : TimedInput} {s : Replica J}
    {intent : PersistenceIntent} (hstep : r.step input = (s, [.persist intent])) :
    ∃ plan, s = { r with parked := some (park plan) } ∧ intent = plan.intent ∧
      r.plan input = .ok plan ∧ r.Drafted (r.givenOf input) plan ∧
      legal r.progress.toProgressData plan.candidate.toProgressData plan.kind = none := by
  have hdeferral := h.deferral input
  rw [hstep] at hdeferral
  cases hdeferral with
  | parked plan hplan hdrafted hfault hlegal => exact ⟨plan, rfl, rfl, hplan, hdrafted, hlegal⟩

theorem Idle.outstanding {r : Replica J} (h : r.Idle) {input : TimedInput} {s : Replica J}
    {intent : PersistenceIntent} (hstep : r.step input = (s, [.persist intent])) :
    Outstanding r s := by
  obtain ⟨plan, rfl, rfl, hplan, -, -⟩ := h.parks hstep
  refine ⟨rfl, rfl, fun other hfresh => ?_, fun other revision effects hfresh hpublished => ?_⟩
  · have hrefused : ∃ refusal,
        ({ r with parked := some (park plan) } : Replica J).plan other = .error refusal := by
      cases hother : ({ r with parked := some (park plan) } : Replica J).plan other with
      | error refusal => exact ⟨refusal, rfl⟩
      | ok planned =>
        have hparked : ∀ {p : Planned},
            ({ r with parked := some (park plan) } : Replica J).refuseIfParked p ≠ .ok planned := by
          intro p hp
          have := (refuseIfParked_ok hp).1
          cases this
        unfold Replica.plan at hother
        split at hother
        · cases hother
        · simp only at hother
          split at hother
          · cases hother
          · split at hother
            · rename_i revision result hevent
              exact absurd hevent (hfresh revision result)
            all_goals exact absurd hother hparked
    obtain ⟨refusal, hrefused⟩ := hrefused
    unfold step
    rw [hrefused]
  · have hpublish := publish_cases ({ r with parked := some (park plan) } : Replica J) other
    generalize ({ r with parked := some (park plan) } : Replica J).publish other = outcome
      at hpublish hpublished
    cases hpublish with
    | published _ _ _ _ hnow =>
      have hdeferred : ¬(other.completion = true ∨ r.stability = .volatile) := by
        simp [hfresh, h.external]
      exact hdeferred hnow
    | refused => cases hpublished
    | faulted => cases hpublished
    | diverged => cases hpublished
    | parked => cases hpublished

/-! ### A failed intent -/

omit [Journal J] in
theorem identityCandidate_isOk {r : Replica J} (hfault : r.progress.fault = none)
    (hrevision : r.progress.revision + 1 < u64Bound) :
    ∃ candidate, r.identityCandidate = .ok candidate := by
  have hcheck : ({ r.progress.toProgressData with revision := r.progress.revision + 1 } :
      ProgressData).check = .ok () :=
    ProgressData.check_eq_ok.mpr
      ⟨r.progress.frontierChain, r.progress.statusRelation, r.progress.eraDiscipline⟩
  unfold identityCandidate Progress.withStatus Progress.transition
  rw [hfault]
  simp only
  rw [if_pos hrevision]
  unfold Progress.reconstitute
  split
  · exact ⟨_, rfl⟩
  · rename_i error herror
    rw [hcheck] at herror
    cases herror

omit [Journal J] in
/-- The record one revision on is a legal successor, whatever came in. -/
theorem legal_sameRecord {r : Replica J} {candidate : Progress} (hsame : r.SameRecord candidate)
    (hfault : r.progress.fault = none) (hrevision : r.progress.revision + 1 < u64Bound)
    {kind : InputKind} (hkind : rule7HeaderSlotViolated kind = false) :
    legal r.progress.toProgressData candidate.toProgressData kind = none := by
  have hchain := r.progress.frontierChain
  have hera := r.progress.eraDiscipline
  rw [hsame, legal_eq_none_iff]
  refine ⟨hfault, ?_, ?_, ?_, ?_, ?_, hkind⟩
  · unfold rule1FrontiersViolated
    rw [if_neg, if_neg]
    · simp
    · simp
    · exact not_not.mpr hchain
  · simp [rule2ViewSuccessionViolated]
  · simp [rule3RetainedViolated]
  · simp [rule4RevisionViolated, hrevision]
  · unfold rule6EraSlotViolated
    rw [decide_eq_false_iff_not, not_not]
    exact hera

omit [Journal J] in
/-- The purge of a transition that leaves the configuration alone drops the voters. -/
theorem nextWitnesses_eq (r : Replica J) :
    nextWitnesses r.witnesses r.progress.config.current.config none =
      r.witnesses.filter fun witness => !r.isVoter witness := by
  unfold nextWitnesses
  simp only
  congr 1
  funext witness
  unfold isVoter committedWeight
  cases r.progress.config.current.config.weightOf witness with
  | none => rfl
  | some weight =>
    by_cases hweight : 1 ≤ weight
    · simp only [hweight, decide_true, Bool.not_true, decide_eq_false_iff_not]
      omega
    · simp only [hweight, decide_false, Bool.not_false, decide_eq_true_eq]
      omega

/-- **A failed intent is forgotten**, but for the voters among the witnesses. -/
theorem Idle.failed {r : Replica J} (h : r.Idle) {input : TimedInput} {s : Replica J}
    {intent : PersistenceIntent} (hstep : r.step input = (s, [.persist intent])) (time : Nat)
    (reason : List UInt8) :
    ∃ progress, r.SameRecord progress ∧
      s.step { time := time, event := .stabilityConfirmation intent.revision (.failed reason) } =
        ({ r with
            progress := progress, diagnostic := .none
            witnesses := r.witnesses.filter fun witness => !r.isVoter witness }, []) := by
  obtain ⟨plan, rfl, rfl, hplan, hdrafted, hlegal⟩ := h.parks hstep
  have hfault := (plan_gate hplan).1
  have hrevision : r.progress.revision + 1 < u64Bound := by
    have := (legal_eq_none_iff.mp hlegal).2.2.2.2.1
    simp [rule4RevisionViolated] at this
    exact this.1
  obtain ⟨candidate, hcandidate⟩ := identityCandidate_isOk hfault hrevision
  have hsame := identityCandidate_ok hcandidate
  have hplanned := (plan_confirmation hplan hdrafted time (.failed reason)).trans
    (show _ = Except.ok (r.candidatePlan candidate .none [] .stabilityConfirmed true) by
      unfold planConfirmation
      simp only [park, ne_eq, not_true_eq_false, if_false]
      show (do
        let candidate ← r.identityCandidate
        return r.candidatePlan candidate .none [] .stabilityConfirmed true) = _
      rw [hcandidate]
      rfl)
  refine ⟨candidate, hsame, ?_⟩
  rw [step_installs hplanned rfl rfl (legal_sameRecord hsame hfault hrevision rfl) (Or.inl rfl)]
  show (({ r with parked := none } : Replica J).installed _ r.journal, []) = _
  have hconfig : candidate.config = r.progress.config := hsame.unmoved.config
  rw [Idle.unpark h.unparked, ← nextWitnesses_eq, ← hconfig]
  rfl

/-- A failed intent leaves everything as before exactly if no witness had a vote. -/
theorem Idle.failed_asBefore {r : Replica J} (h : r.Idle) {input : TimedInput} {s : Replica J}
    {intent : PersistenceIntent} (hstep : r.step input = (s, [.persist intent])) (time : Nat)
    (reason : List UInt8) :
    AsBefore r (s.step
        { time := time, event := .stabilityConfirmation intent.revision (.failed reason) }).1 ↔
      r.NamesNoVoter := by
  obtain ⟨progress, hsame, hfailed⟩ := h.failed hstep time reason
  rw [hfailed]
  constructor
  · rintro ⟨other, diagnostic, -, heq⟩ witness hmem
    have hkept : r.witnesses.filter (fun witness => !r.isVoter witness) = r.witnesses :=
      congrArg Replica.witnesses heq
    simpa using List.filter_eq_self.mp hkept witness hmem
  · intro hnames
    refine ⟨progress, .none, hsame, ?_⟩
    have hkept : r.witnesses.filter (fun witness => !r.isVoter witness) = r.witnesses :=
      List.filter_eq_self.mpr fun witness hmem => by simp [hnames witness hmem]
    show ({ r with progress := progress, diagnostic := .none, witnesses := _ } : Replica J) = _
    rw [hkept]

/-! ### The list of witnesses -/

/-- Whoever takes an input has no voter among its witnesses. -/
def TakesWithoutVoters (r : Replica J) : Prop :=
  ∀ (input : TimedInput) (s : Replica J) (intent : PersistenceIntent),
    r.step input = (s, [.persist intent]) → r.NamesNoVoter

omit [Journal J] in
theorem installed_namesNoVoter (r : Replica J) (plan : PlannedTransition) (journal : J) :
    (r.installed plan journal).NamesNoVoter := by
  intro witness hmem
  have hkept := (List.mem_filter.mp (show witness ∈ List.filter _ _ from hmem)).2
  have hcommitted : (r.installed plan journal).committedWeight witness =
      plan.candidate.config.current.config.weightOf witness := rfl
  unfold isVoter
  rw [hcommitted]
  cases hweight : plan.candidate.config.current.config.weightOf witness with
  | none => rfl
  | some weight =>
    simp only [hweight, decide_eq_true_eq] at hkept
    simpa using hkept

theorem TakesWithoutVoters.stepStable {r : Replica J} (hr : r.TakesWithoutVoters) (h : r.Idle)
    (input : TimedInput × Confirmation) : (r.stepStable input).1.TakesWithoutVoters := by
  have hfaulted : ∀ fault, (r.faultNode fault).TakesWithoutVoters := by
    intro fault
    rcases faultNode_cases r fault with heq | ⟨progress, heq, hdata⟩
    · rw [heq]
      exact hr
    · rw [heq]
      intro later s intent hstep
      unfold step Replica.plan at hstep
      rw [show progress.fault = some fault from by rw [hdata]] at hstep
      cases (Prod.mk.inj hstep).2
  have hconfirmed := h.confirmed input
  generalize r.stepStable input = out at hconfirmed
  generalize r.volatile.step input.1 = out' at hconfirmed
  cases hconfirmed with
  | refused => exact hr
  | faulted fault => exact hfaulted fault
  | diverged intent => exact hfaulted _
  | installed plan journal => exact fun _ _ _ _ => installed_namesNoVoter r plan journal

/-- **Deferred stability is as good as volatile exactly where no witness has a vote** by the time
the replica takes an input. Everything but a failed intent needs no such condition. -/
theorem deferredStability_iff {r : Replica J} (hunparked : r.parked = none)
    (hexternal : r.stability ≠ .volatile) :
    r.DeferredStability ↔
      ∀ (input : TimedInput) (s : Replica J) (intent : PersistenceIntent),
        r.step input = (s, [.persist intent]) → r.NamesNoVoter := by
  have hidle : r.Idle := ⟨hunparked, hexternal⟩
  constructor
  · intro hdeferred input s intent hstep
    exact (hidle.failed_asBefore hstep 0 []).mp (hdeferred.failed [] input s intent 0 [] hstep)
  · intro hvoters
    have hrun : ∀ inputs, (Machine.run Replica.stepStable r inputs).Idle ∧
        (Machine.run Replica.stepStable r inputs).TakesWithoutVoters := by
      intro inputs
      refine Machine.run_induct (P := fun s : Replica J => s.Idle ∧ s.TakesWithoutVoters) ?_
        ⟨hidle, hvoters⟩ inputs
      exact fun s input hs => ⟨hs.1.stepStable input, hs.2.stepStable hs.1 input⟩
    refine ⟨hidle.simulates, fun inputs input s intent hstep => ?_,
      fun inputs input s intent time reason hstep => ?_⟩
    · exact (hrun inputs).1.outstanding hstep
    · exact ((hrun inputs).1.failed_asBefore hstep time reason).mpr
        ((hrun inputs).2 input s intent hstep)

/-! ### A startup registration -/

/-- The first of two members of a fresh cluster, on a forced log, with registered witnesses. -/
def registered (witnesses : List Nat) : Option (Replica SegmentedLog) :=
  (provision 1 [1, 2] weightedMajority (SegmentedLog.withTailCapacity 4) .forced
    { primaryTimeout := 0, viewChangeBudget := 1000 }).toOption.map fun r =>
      r.withWitnesses witnesses

theorem registered_reached {witnesses : List Nat} {r : Replica SegmentedLog}
    (h : registered witnesses = some r) : r.Reached := by
  obtain ⟨fresh, hfresh, rfl⟩ := Option.map_eq_some_iff.mp h
  exact (Reached.provision (toOption_eq_some hfresh)).witnesses witnesses

theorem registered_isSome (witnesses : List Nat) : ∃ r, registered witnesses = some r := by
  have hfresh : (provision 1 [1, 2] weightedMajority (SegmentedLog.withTailCapacity 4) .forced
      { primaryTimeout := 0, viewChangeBudget := 1000 }).toOption.isSome = true := by
    decide +kernel
  obtain ⟨fresh, hfresh⟩ := Option.isSome_iff_exists.mp hfresh
  exact ⟨fresh.withWitnesses witnesses, by rw [registered, hfresh, Option.map_some]⟩

def hostTick : TimedInput := { time := 1, event := .tick }

/-- With a witness that is no member, deferred stability is as good as volatile. -/
theorem deferredStability_outsider :
    ∃ r : Replica SegmentedLog, r.Reached ∧ r.witnesses = [9] ∧ r.DeferredStability := by
  obtain ⟨r, hr⟩ := registered_isSome [9]
  have hstate : (registered [9]).map (fun r =>
      (r.witnesses, r.parked.isNone, decide (r.stability = .volatile), r.isVoter 9)) =
      some ([9], true, false, false) := by decide +kernel
  rw [hr] at hstate
  simp only [Option.map_some, Option.some.injEq, Prod.mk.injEq] at hstate
  obtain ⟨hwitnesses, hparked, hmode, hvoter⟩ := hstate
  refine ⟨r, registered_reached hr, hwitnesses, ?_⟩
  refine (deferredStability_iff (Option.isNone_iff_eq_none.mp hparked) (by simpa using hmode)).mpr
    fun _ _ _ _ witness hmem => ?_
  rw [hwitnesses, List.mem_singleton] at hmem
  rw [hmem]
  exact hvoter

/-- **A registered member is forgotten with a failed intent.** -/
theorem registered_member_dropped :
    ∃ r : Replica SegmentedLog, r.Reached ∧ r.parked = none ∧ r.stability = .forced ∧
      r.witnesses = [2] ∧
      (∃ intent, (r.step hostTick).2 = [.persist intent] ∧
        ((r.step hostTick).1.step
          { time := 2
            event := .stabilityConfirmation intent.revision (.failed []) }).1.witnesses = []) ∧
      ¬r.DeferredStability := by
  obtain ⟨r, hr⟩ := registered_isSome [2]
  have hstate : (registered [2]).map (fun r =>
      (r.witnesses, r.parked.isNone, r.stability, (r.step hostTick).2,
        ((r.step hostTick).1.step
          { time := 2, event := .stabilityConfirmation 0 (.failed []) }).1.witnesses)) =
      some ([2], true, .forced,
        [.persist { revision := 0, progress := .record, journal := .unchanged }], []) := by
    decide +kernel
  rw [hr] at hstate
  simp only [Option.map_some, Option.some.injEq, Prod.mk.injEq] at hstate
  obtain ⟨hwitnesses, hparked, hmode, hreleased, hdropped⟩ := hstate
  refine ⟨r, registered_reached hr, Option.isNone_iff_eq_none.mp hparked, hmode, hwitnesses,
    ⟨_, hreleased, hdropped⟩, fun hdeferred => ?_⟩
  obtain ⟨progress, diagnostic, -, hkept⟩ :=
    hdeferred.failed [] hostTick (r.step hostTick).1 _ 2 [] (Prod.ext rfl hreleased)
  have hlost := congrArg Replica.witnesses hkept
  rw [hdropped] at hlost
  exact absurd (hlost.trans hwitnesses) (by simp)

end Replica

end UvrrCore
