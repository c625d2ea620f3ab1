import UvrrCore.Promise.Handlers

/-!
# The promise over a life

A life is a list of inputs planned and published one after the other. `trace` records each
transition with the states around it; `Watched` adds to a replica the input whose transition
waits for its confirmation, so that a transition knows the message it took its entries from.

`promise_discipline` is the result: once evidence for a ballot went out, or a view was installed
at it, no later transition votes below that ballot or journals what arrived below it.
-/

namespace UvrrCore

/-- A replica, and the input of its parked transition. -/
structure Watched (J : Type) where
  replica : Replica J
  pending : Option TimedInput

/-- One step of a life. -/
structure Transition (J : Type) where
  before : Watched J
  input : TimedInput
  effects : List Effect
  after : Watched J

namespace Watched

variable {J : Type} [Journal J]

def step (w : Watched J) (input : TimedInput) : Watched J × List Effect :=
  let next := w.replica.step input
  let pending :=
    if next.1.parked.isNone then none
    else if w.replica.parked.isSome then w.pending
    else some input
  ({ replica := next.1, pending := pending }, next.2)

/-- The transitions of a life, in order. -/
def trace (w : Watched J) : List TimedInput → List (Transition J)
  | [] => []
  | input :: inputs =>
    { before := w, input := input, effects := (w.step input).2, after := (w.step input).1 } ::
      trace (w.step input).1 inputs

end Watched

namespace Transition

variable {J : Type}

/-- The message whose transition takes effect: the delivered one, or at a confirmation the one
that was parked. -/
def source (t : Transition J) : Option Message :=
  match t.input.event with
  | .peer _ message => some message
  | .stabilityConfirmation _ _ =>
    match t.before.pending with
    | some { time := _, event := .peer _ message } => some message
    | _ => none
  | _ => none

/-- The transition emitted ordinary evidence for the ballot, or serves it afterwards. -/
def Promises (t : Transition J) (ballot : Ballot) : Prop :=
  (∃ effect ∈ t.effects, effect.report = some ballot) ∨
    (t.after.replica.progress.status = .normal ∧ t.after.replica.progress.retained = ballot)

/-- The transition journaled what a `Prepare` or a `Fuse` of the ballot brought. -/
def JournalsAt (t : Transition J) (ballot : Ballot) : Prop :=
  ∃ message, t.source = some message ∧ (message.tag = .prepare ∨ message.tag = .fuse) ∧
    message.header.view = ballot ∧ t.after.replica.journal ≠ t.before.replica.journal

end Transition

namespace Replica

variable {J : Type}

/-- What a parked transition releases when its persistence is confirmed. -/
def confirmed (r : Replica J) (parked : ParkedTransition) : PlannedTransition :=
  ((r.candidatePlan parked.candidate parked.journal parked.effects parked.kind
    true).withBookkeeping parked.bookkeeping).withDiagnostic parked.diagnostic

/-- A journaled `Prepare` or `Fuse` is not behind the ballot the replica holds. -/
def ReceivedInTime (r : Replica J) (input : TimedInput) (journal : JournalMutation) : Prop :=
  ∀ sender message, input.event = .peer sender message →
    (message.tag = .prepare ∨ message.tag = .fuse) → journal ≠ .none →
    r.progress.current ≤ message.header.view

/-- The three answers to a confirmation. -/
theorem planConfirmation_promising {r : Replica J} (hr : r.Composed)
    (hparked : ∀ parked, r.parked = some parked → Promising r (r.confirmed parked))
    {revision : Nat} {result : StabilityResult} {plan : PlannedTransition}
    (h : r.planConfirmation revision result = .ok plan) :
    Promising r plan ∧ (plan.journal = .none ∨
      ∃ parked, r.parked = some parked ∧ plan.journal = parked.journal) := by
  unfold planConfirmation at h
  split at h
  · cases h
  · rename_i parked hsome
    split at h
    · cases h
    · split at h
      · cases h
        exact ⟨hparked parked hsome, Or.inr ⟨parked, hsome, rfl⟩⟩
      · obtain ⟨candidate, hcandidate, h⟩ := bind_eq_ok.mp h
        cases pure_eq_ok.mp h
        have hsame := identityCandidate_ok hcandidate
        exact ⟨(hr.kept rfl rfl (follows_same hsame) Fair.nil (by simp [candidatePlan])).toPromising,
          Or.inl rfl⟩
      · obtain ⟨candidate, hcandidate, h⟩ := bind_eq_ok.mp h
        cases pure_eq_ok.mp h
        have hrecord := (Progress.transition_data (asCandidate_eq_ok.mp hcandidate)).1
        refine ⟨(hr.kept rfl rfl (Or.inl ?_) Fair.nil (by simp [candidatePlan])).toPromising,
          Or.inl rfl⟩
        show candidate.current = _ ∧ candidate.status = _
        rw [hrecord]
        exact ⟨rfl, rfl⟩

theorem faultNode_composed {r : Replica J} (hr : r.Composed) (fault : Fault) :
    (r.faultNode fault).Composed ∧
      (r.faultNode fault).progress.current = r.progress.current ∧
      (r.faultNode fault).journal = r.journal ∧ (r.faultNode fault).parked = r.parked := by
  rcases faultNode_cases r fault with heq | ⟨progress, heq, hdata⟩
  · rw [heq]
    exact ⟨hr, rfl, rfl, rfl⟩
  · rw [heq]
    refine ⟨⟨fun attempt hv => ?_, fun hp => ?_⟩, by rw [hdata], rfl, rfl⟩
    · rw [hdata]
      exact hr.attempt attempt hv
    · rw [hdata]
      exact hr.overlap hp

variable [Journal J]

theorem planPrepare_received {r : Replica J} {sender : Nat} {message : Message}
    {entry : LogEntry} {piggybacked time : Nat} {kind : InputKind} {plan : PlannedTransition}
    (h : r.planPrepare sender message entry piggybacked time kind = .ok plan)
    (hjournal : plan.journal ≠ .none) : r.progress.current ≤ message.header.view := by
  cases planPrepare_cases h with
  | dropped _ hdrop =>
    obtain ⟨candidate, -, rfl⟩ := dropPlan_ok hdrop
    exact absurd rfl hjournal
  | signalled hahead _ => exact le_of_lt hahead
  | held hview _ _ _ => exact le_of_eq hview.symm
  | gap next drop hdrop hplan =>
    subst hplan
    obtain ⟨candidate, -, rfl⟩ := dropPlan_ok hdrop
    exact absurd rfl hjournal
  | next hview _ _ _ => exact le_of_eq hview.symm

theorem planFuse_received {r : Replica J} {sender : Nat} {message : Message}
    {ops : List SystemOperation} {time : Nat} {kind : InputKind} {plan : PlannedTransition}
    (h : r.planFuse sender message ops time kind = .ok plan)
    (hjournal : plan.journal ≠ .none) : r.progress.current ≤ message.header.view := by
  cases planFuse_cases h with
  | dropped _ hdrop =>
    obtain ⟨candidate, -, rfl⟩ := dropPlan_ok hdrop
    exact absurd rfl hjournal
  | signalled hahead _ => exact le_of_lt hahead
  | next hview _ _ _ _ _ _ _ _ _ _ _ => exact le_of_eq hview.symm

theorem plan_received {r : Replica J} {input : TimedInput} {plan : PlannedTransition}
    (h : r.plan input = .ok plan) : r.ReceivedInTime input plan.journal := by
  intro sender message hevent htag hjournal
  unfold Replica.plan at h
  split at h
  · cases h
  · simp only [hevent] at h
    split at h
    · cases h
    · unfold refuseIfParked at h
      split at h
      · cases h
      · unfold planPeer at h
        split at h
        · obtain ⟨candidate, -, rfl⟩ := dropPlan_ok h
          exact absurd rfl hjournal
        · obtain ⟨body, hbody, h⟩ := bind_eq_ok.mp h
          have hsame : plan.journal = body.journal := by
            cases pure_eq_ok.mp h
            split <;> rfl
          rw [hsame] at hjournal
          unfold planBody at hbody
          unfold Message.tag at htag
          cases hkind : message.body with
          | prepare => rw [hkind] at hbody; exact planPrepare_received hbody hjournal
          | fuse => rw [hkind] at hbody; exact planFuse_received hbody hjournal
          | _ => rw [hkind] at htag; rcases htag with h | h <;> cases h

end Replica

/-! ### The invariant of a life -/

section Life

variable {J : Type}

/-- What one transition keeps: the ballot does not move back, the votes are at the ballot held
before it or above, the evidence at most at the one held after it. -/
structure Disciplined (t : Transition J) : Prop where
  advances : t.before.replica.progress.current ≤ t.after.replica.progress.current
  fair : Fair t.before.replica.progress.current t.after.replica.progress.current t.effects
  journals : ∀ ballot, t.JournalsAt ballot → t.before.replica.progress.current ≤ ballot

/-- A step that released nothing and left the ballot and the journal. -/
theorem disciplined_quiet {t : Transition J} (heffects : t.effects = [])
    (hcurrent : t.after.replica.progress.current = t.before.replica.progress.current)
    (hjournal : t.after.replica.journal = t.before.replica.journal) : Disciplined t := by
  refine ⟨le_of_eq hcurrent.symm, heffects ▸ Fair.nil, fun ballot hj => ?_⟩
  obtain ⟨_, _, _, _, hne⟩ := hj
  exact absurd hjournal hne

/-- What a transition promises is at most the ballot held after it. -/
theorem Disciplined.promised_le {t : Transition J} (ht : Disciplined t) {ballot : Ballot}
    (h : t.Promises ballot) : ballot ≤ t.after.replica.progress.current := by
  rcases h with ⟨effect, hmem, hreport⟩ | ⟨hserving, hretained⟩
  · exact ht.fair.reports effect hmem ballot hreport
  · rw [t.after.replica.progress.current_eq_retained hserving, hretained]

/-- What a life keeps between transitions: the volatile state is composed, and what is parked
still keeps the promises. -/
structure Guarded (w : Watched J) : Prop where
  composed : w.replica.Composed
  parked : ∀ parked, w.replica.parked = some parked →
    Replica.Promising w.replica (w.replica.confirmed parked) ∧
      ∀ input, w.pending = some input → w.replica.ReceivedInTime input parked.journal

theorem guarded_assemble (own : Nat) (strategy : QuorumStrategy) (journal : J)
    (stability : Stability) (knobs : ViewChangeKnobs) (progress : Progress) :
    Guarded
      { replica := Replica.assemble own strategy journal stability knobs progress
        pending := none } := by
  refine ⟨⟨fun attempt h => ?_, fun h => ?_⟩, fun parked h => ?_⟩ <;> cases h

variable [Journal J]

/-- The transition of one input. -/
def Watched.transition (w : Watched J) (input : TimedInput) : Transition J where
  before := w
  input := input
  effects := (w.step input).2
  after := (w.step input).1

/-- The plan of any input keeps the promises, a confirmed one as well. -/
theorem Guarded.plan {w : Watched J} (hw : Guarded w) {input : TimedInput}
    {plan : PlannedTransition} (h : w.replica.plan input = .ok plan) :
    Replica.Promising w.replica plan ∧
      ∀ message, (w.transition input).source = some message →
        (message.tag = .prepare ∨ message.tag = .fuse) → plan.journal ≠ .none →
        w.replica.progress.current ≤ message.header.view := by
  by_cases hconfirm : ∃ revision result, input.event = .stabilityConfirmation revision result
  · obtain ⟨revision, result, hevent⟩ := hconfirm
    have hplan : w.replica.planConfirmation revision result = .ok plan := by
      unfold Replica.plan at h
      split at h
      · cases h
      · simp only [hevent] at h
        split at h
        · cases h
        · exact h
    obtain ⟨hpromising, hjournal⟩ := Replica.planConfirmation_promising hw.composed
      (fun parked hp => (hw.parked parked hp).1) hplan
    refine ⟨hpromising, fun message hsource htag hne => ?_⟩
    rcases hjournal with hnone | ⟨parked, hparked, hsame⟩
    · exact absurd hnone hne
    · unfold Transition.source Watched.transition at hsource
      simp only [hevent] at hsource
      split at hsource
      · rename_i time sender other hpending
        have hmessage := Option.some.inj hsource
        subst hmessage
        exact (hw.parked parked hparked).2 _ hpending sender _ rfl htag (hsame ▸ hne)
      · cases hsource
  · have hfresh : ∀ revision result, input.event ≠ .stabilityConfirmation revision result :=
      fun revision result heq => hconfirm ⟨revision, result, heq⟩
    refine ⟨Replica.plan_promising hw.composed hfresh h, fun message hsource htag hne => ?_⟩
    unfold Transition.source Watched.transition at hsource
    cases hevent : input.event with
    | peer sender other =>
      simp only [hevent, Option.some.injEq] at hsource
      subst hsource
      exact Replica.plan_received h sender _ hevent htag hne
    | stabilityConfirmation revision result => exact absurd hevent (hfresh revision result)
    | _ => simp only [hevent] at hsource; cases hsource

/-- **One step of a life.** -/
theorem Guarded.step {w : Watched J} (hw : Guarded w) (input : TimedInput) :
    Guarded (w.step input).1 ∧ Disciplined (w.transition input) := by
  have hpending : ∀ next : Replica J, (w.replica.step input).1 = next → next.parked = none →
      next.Composed → Guarded (w.step input).1 := by
    intro next heq hnone hcomposed
    have hreplica : (w.step input).1.replica = next := heq
    refine ⟨hreplica ▸ hcomposed, fun parked hparked => ?_⟩
    rw [hreplica, hnone] at hparked
    cases hparked
  have hkept : (w.replica.step input).1.parked = w.replica.parked →
      (w.replica.step input).1.Composed →
      (∀ parked, Replica.Promising w.replica (w.replica.confirmed parked) →
        Replica.Promising (w.replica.step input).1
          ((w.replica.step input).1.confirmed parked)) →
      (w.replica.step input).1.progress.current = w.replica.progress.current →
      Guarded (w.step input).1 := by
    intro hsame hcomposed hpromising hcurrent
    refine ⟨hcomposed, fun parked hparked => ?_⟩
    have hparked' : w.replica.parked = some parked := hsame ▸ hparked
    obtain ⟨hold, hreceived⟩ := hw.parked parked hparked'
    refine ⟨hpromising parked hold, fun origin horigin => ?_⟩
    have hcarried : (w.step input).1.pending = w.pending := by
      unfold Watched.step
      simp only [hsame, hparked', Option.isNone_some, Option.isSome_some, if_true,
        Bool.false_eq_true, if_false]
    intro sender message hevent htag hne
    show (w.replica.step input).1.progress.current ≤ _
    rw [hcurrent]
    exact hreceived origin (hcarried ▸ horigin) sender message hevent htag hne
  have hout := Replica.step_outcome w.replica input
  generalize hstep : w.replica.step input = out at hout
  cases hout with
  | refused =>
    have hsame : (w.replica.step input).1 = w.replica := by rw [hstep]
    refine ⟨hkept (by rw [hsame]) (by rw [hsame]; exact hw.composed)
      (fun parked h => by rw [hsame]; exact h) (by rw [hsame]), disciplined_quiet ?_ ?_ ?_⟩
    · show (w.replica.step input).2 = []
      rw [hstep]
    · show (w.replica.step input).1.progress.current = _
      rw [hsame]; rfl
    · show (w.replica.step input).1.journal = _
      rw [hsame]; rfl
  | faulted fault =>
    obtain ⟨hcomposed, hcurrent, hjournal, hparked⟩ :=
      Replica.faultNode_composed hw.composed fault
    have hsame : (w.replica.step input).1 = w.replica.faultNode fault := by rw [hstep]
    refine ⟨hkept (by rw [hsame, hparked]) (hsame ▸ hcomposed) (fun parked h => ?_)
      (by rw [hsame, hcurrent]), disciplined_quiet ?_ ?_ ?_⟩
    · rw [hsame]
      refine ⟨?_, ?_⟩
      · rcases Replica.faultNode_cases w.replica fault with heq | ⟨progress, heq, -⟩
        · rw [heq]; exact h.composed
        · rw [heq]; exact h.composed
      · rw [hcurrent]; exact h.fair
    · show (w.replica.step input).2 = []
      rw [hstep]
    · show (w.replica.step input).1.progress.current = _
      rw [hsame, hcurrent]; rfl
    · show (w.replica.step input).1.journal = _
      rw [hsame, hjournal]; rfl
  | diverged plan hplan hlegal =>
    obtain ⟨hcomposed, hcurrent, hjournal, hparked⟩ :=
      Replica.faultNode_composed (r := { w.replica with parked := none }) hw.composed
        .progressJournalDivergence
    refine ⟨hpending _ (by rw [hstep]) hparked hcomposed, disciplined_quiet ?_ ?_ ?_⟩
    · show (w.replica.step input).2 = []
      rw [hstep]
    · show (w.replica.step input).1.progress.current = _
      rw [hstep, hcurrent]; rfl
    · show (w.replica.step input).1.journal = _
      rw [hstep, hjournal]; rfl
  | parked plan hplan hfresh hstability hnone =>
    obtain ⟨hpromising, -⟩ := hw.plan hplan
    have hreplica : (w.step input).1.replica =
        { w.replica with parked := some (Replica.park plan) } := by
      show (w.replica.step input).1 = _
      rw [hstep]
    refine ⟨⟨hreplica ▸ hw.composed, fun parked hparked => ?_⟩, ?_⟩
    · rw [hreplica] at hparked
      have heq : Replica.park plan = parked := Option.some.inj hparked
      subst heq
      refine ⟨?_, fun origin horigin => ?_⟩
      · rw [hreplica]
        exact ⟨hpromising.composed, hpromising.fair⟩
      · have horigin' : origin = input := by
          unfold Watched.step at horigin
          simp only [hstep, hnone, Option.isNone_some, Option.isSome_none, Bool.false_eq_true,
            if_false, Option.some.injEq] at horigin
          exact horigin.symm
        subst horigin'
        have hreceived := Replica.plan_received hplan
        rw [hreplica]
        exact hreceived
    · have heffects : (w.transition input).effects = [.persist plan.intent] := by
        show (w.replica.step input).2 = _
        rw [hstep]
      refine ⟨?_, ?_, fun ballot hj => ?_⟩
      · show w.replica.progress.current ≤ (w.step input).1.replica.progress.current
        rw [hreplica]
      · rw [heffects]
        exact Fair.of_silent (by simp [Effect.vote])
      · obtain ⟨_, _, _, _, hne⟩ := hj
        refine absurd ?_ hne
        show (w.step input).1.replica.journal = w.replica.journal
        rw [hreplica]
  | published plan journal hplan hbase hfault hlegal hjournal =>
    obtain ⟨hpromising, hreceived⟩ := hw.plan hplan
    have hreplica : (w.step input).1.replica =
        ({ w.replica with parked := none } : Replica J).installed plan journal := by
      show (w.replica.step input).1 = _
      rw [hstep]
    refine ⟨hpending (({ w.replica with parked := none } : Replica J).installed plan journal)
      (by rw [hstep]) rfl hpromising.composed, ?_, ?_, fun ballot hj => ?_⟩
    · show w.replica.progress.current ≤ (w.step input).1.replica.progress.current
      rw [hreplica]
      exact current_le_of_legal hlegal
    · show Fair w.replica.progress.current (w.step input).1.replica.progress.current
        (w.replica.step input).2
      rw [hreplica, hstep]
      exact hpromising.fair
    · obtain ⟨message, hsource, htag, hview, hne⟩ := hj
      rw [← hview]
      refine hreceived message hsource htag fun hnone => hne ?_
      rw [hnone] at hjournal
      show (w.step input).1.replica.journal = w.replica.journal
      rw [hreplica]
      exact (Except.ok.inj hjournal).symm

/-! ### Whole lives -/

theorem trace_cons (w : Watched J) (input : TimedInput) (inputs : List TimedInput) :
    w.trace (input :: inputs) = w.transition input :: (w.step input).1.trace inputs := rfl

/-- Every transition of a life is disciplined, and none starts below the ballot the life
started with. -/
theorem trace_disciplined {w : Watched J} (hw : Guarded w) (inputs : List TimedInput) :
    ∀ t ∈ w.trace inputs, Disciplined t ∧
      w.replica.progress.current ≤ t.before.replica.progress.current := by
  induction inputs generalizing w with
  | nil => simp [Watched.trace]
  | cons input inputs ih =>
    obtain ⟨hnext, hfirst⟩ := hw.step input
    intro t hmem
    rw [trace_cons] at hmem
    rcases List.mem_cons.mp hmem with rfl | hmem
    · exact ⟨hfirst, le_refl _⟩
    · obtain ⟨hdisciplined, hle⟩ := ih hnext t hmem
      exact ⟨hdisciplined, le_trans hfirst.advances hle⟩

/-- **The promise discipline.** Over every life, from any record it starts with: the ballot
never moves back, and once ordinary evidence for a ballot went out or a view was installed at
it, no later transition emits an acknowledgement, a proposal or ordinary evidence below it, or
journals an entry a `Prepare` or a `Fuse` below it brought. -/
theorem promise_discipline (own : Nat) (strategy : QuorumStrategy) (journal : J)
    (stability : Stability) (knobs : ViewChangeKnobs) (progress : Progress)
    (inputs : List TimedInput) :
    let life := Watched.trace
      { replica := Replica.assemble own strategy journal stability knobs progress
        pending := none } inputs
    (∀ t ∈ life, t.before.replica.progress.current ≤ t.after.replica.progress.current) ∧
    life.Pairwise fun earlier later =>
      earlier.after.replica.progress.current ≤ later.before.replica.progress.current ∧
      ∀ ballot, earlier.Promises ballot →
        (∀ effect ∈ later.effects, ∀ vote, effect.vote = some vote → ballot ≤ vote) ∧
        ∀ received, later.JournalsAt received → ballot ≤ received := by
  intro life
  have hpair : ∀ (w : Watched J), Guarded w → ∀ inputs : List TimedInput,
      (w.trace inputs).Pairwise fun earlier later =>
        earlier.after.replica.progress.current ≤ later.before.replica.progress.current ∧
        ∀ ballot, earlier.Promises ballot →
          (∀ effect ∈ later.effects, ∀ vote, effect.vote = some vote → ballot ≤ vote) ∧
          ∀ received, later.JournalsAt received → ballot ≤ received := by
    intro w hw inputs
    induction inputs generalizing w with
    | nil => exact List.Pairwise.nil
    | cons input inputs ih =>
      obtain ⟨hnext, hfirst⟩ := hw.step input
      rw [trace_cons]
      refine List.pairwise_cons.mpr ⟨fun later hmem => ?_, ih _ hnext⟩
      obtain ⟨hlater, hle⟩ := trace_disciplined hnext inputs later hmem
      refine ⟨hle, fun ballot hpromised => ?_⟩
      have hbound : ballot ≤ later.before.replica.progress.current :=
        le_trans (hfirst.promised_le hpromised) hle
      exact ⟨fun effect hin vote hvote => le_trans hbound (hlater.fair.votes effect hin vote hvote),
        fun received hj => le_trans hbound (hlater.journals received hj)⟩
  have hstart := guarded_assemble own strategy journal stability knobs progress
  exact ⟨fun t hmem => (trace_disciplined hstart inputs t hmem).1.advances, hpair _ hstart inputs⟩

end Life

end UvrrCore
