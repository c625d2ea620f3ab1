import UvrrCore.OneEra.Transfers

/-!
# The inputs of the first era

Every input that reconfigures nothing is a move of its node: a proposal, a tick, an operator's
view, an acknowledgement of the host, and a message that was sent, as long as what it installs
fits (`DeliveryFits`, `TickFits`).
-/

namespace UvrrCore

open Viewstamped

/-- What a message has to fit when it is delivered. -/
def DeliveryFits (sent : List Envelope) (r : Replica SegmentedLog) (e : Envelope) : Prop :=
  match e.message.body with
  | .startViewChange => ∀ attempt ∈ r.viewChange, ReportsAgree sent r attempt
  | .doViewChange retained accepted committed suffix _ _ =>
    (∀ attempt ∈ r.viewChange, ReportsAgree sent r attempt) ∧
      (r.progress.retained < retained →
        ∀ other ∈ sent,
          Genesis.Carries other e.sender e.message.header.view
            { retained := retained, accepted := accepted, committed := committed
              suffix := suffix } →
          GapAgrees r other.origin suffix accepted)
  | .startView suffix accepted _ _ =>
    Genesis.Adoptable r e.message.header.view → GapAgrees r e.origin suffix accepted
  | .newState _ through _ _ =>
    r.chunkQualified e.sender e.message.header.view = true → r.progress.accepted < through →
      ChunkFits r e.origin e.message.header.view
  | _ => True

instance (sent : List Envelope) (r : Replica SegmentedLog) (e : Envelope) :
    Decidable (DeliveryFits sent r e) := by
  unfold DeliveryFits
  split <;> infer_instance

/-- What a retained offer has to fit when it is judged again. -/
def OfferFits (sent : List Envelope) (r : Replica SegmentedLog) (offer : StalledStartView) :
    Prop :=
  match offer.message.body with
  | .startView suffix accepted _ _ =>
    Genesis.Adoptable r offer.message.header.view →
      ∀ e ∈ sent, e.sender = offer.sender → e.message = offer.message →
        GapAgrees r e.origin suffix accepted
  | _ => True

instance (sent : List Envelope) (r : Replica SegmentedLog) (offer : StalledStartView) :
    Decidable (OfferFits sent r offer) := by
  unfold OfferFits
  split <;> infer_instance

/-- What a tick may go on with. -/
def TickFits (sent : List Envelope) (r : Replica SegmentedLog) : Prop :=
  (∀ attempt ∈ r.viewChange, ReportsAgree sent r attempt) ∧
    ∀ offer ∈ r.stalled, OfferFits sent r offer

instance (sent : List Envelope) (r : Replica SegmentedLog) : Decidable (TickFits sent r) :=
  inferInstanceAs (Decidable ((∀ attempt ∈ r.viewChange, _) ∧ ∀ offer ∈ r.stalled, _))

namespace Genesis

variable {g : Genesis} {a : Ledger} {sent : List Envelope} {node : Nat}
  {r : Replica SegmentedLog}

theorem Refines.withActivity {plan : PlannedTransition} (h : g.Refines a sent node r plan)
    (tick : Nat) : g.Refines a sent node r (plan.withActivity tick) := by
  obtain ⟨a', hadvances, hlanded⟩ := h
  exact ⟨a', hadvances, { hlanded with }⟩

/-! ### Accepting and learning -/

theorem planPrepare_refines (hinv : Inv g.setting a) (htracks : g.Tracks a sent node r)
    (hsent : ∀ e ∈ sent, g.MessageOk a e) (hwhole : a.Whole node) {sender : Nat}
    {message : Message} (hera : message.header.view.era = 1) {entry : LogEntry}
    {piggybacked : Nat} (hentry : logAt (a.hist message.header.view) entry.slot = some entry)
    (hknown : g.Known a message.header.view piggybacked) {time : Nat} {kind : InputKind}
    {plan : PlannedTransition}
    (h : r.planPrepare sender message entry piggybacked time kind = .ok plan)
    (hfault : plan.fault = none) : g.Refines a sent node r plan := by
  -- the ballot of a serving node is the one it retains
  have hballot : message.header.view = r.progress.current → r.progress.status ≠ .viewChange →
      message.header.view = (a.nodes node).retained := by
    intro hview hserving
    rw [hview, htracks.record.current, htracks.serving hserving]
  cases Replica.planPrepare_cases h with
  | dropped _ hdrop => exact dropPlan_refines htracks hdrop
  | signalled _ hsignal =>
    exact planHigherViewSignal_refines hinv htracks hsent hwhole hera hsignal hfault
  | held hview hserving hslot hheld =>
    have hballot := hballot hview hserving
    rw [htracks.adoptedStatus hera hserving] at hheld
    exact planHeldPrepare_refines hinv htracks hwhole hserving (hballot ▸ hknown) hslot hheld
      hfault
  | gap next drop hdrop hplan =>
    subst hplan
    exact (dropPlan_refines htracks hdrop).withFetch
  | next hview hserving hslot hnext =>
    have hballot := hballot hview hserving
    rw [htracks.adoptedStatus hera hserving] at hnext
    exact planNextPrepare_refines hinv htracks hwhole hserving (hballot ▸ hknown)
      (hballot ▸ hentry) hslot hnext hfault

/-- **A commit frontier** that is known is learned as far as the log reaches. -/
theorem planCommit_refines (hinv : Inv g.setting a) (htracks : g.Tracks a sent node r)
    (hsent : ∀ e ∈ sent, g.MessageOk a e) (hwhole : a.Whole node) {sender : Nat}
    {message : Message} (hera : message.header.view.era = 1) {frontier : Nat}
    (hknown : g.Known a message.header.view frontier) {time : Nat} {kind : InputKind}
    {plan : PlannedTransition}
    (h : r.planCommit sender message frontier time kind = .ok plan)
    (hfault : plan.fault = none) : g.Refines a sent node r plan := by
  have hr := htracks.record
  have hordered := r.progress.committed_le_accepted
  cases Replica.planCommit_cases h with
  | dropped _ hdrop => exact dropPlan_refines htracks hdrop
  | breached hbreach => exact absurd hfault (breachPlan_fault hbreach)
  | signalled _ hsignal =>
    exact planHigherViewSignal_refines hinv htracks hsent hwhole hera hsignal hfault
  | steady hemit => exact emitPlan_refines htracks hemit fun _ hmem => nomatch hmem
  | learned hview hserving folded applied candidate applies hfold hwalk hcandidate happlies hplan =>
    subst hplan
    have hballot : message.header.view = (a.nodes node).retained := by
      rw [hview, hr.current, htracks.serving hserving]
    rw [hballot] at hknown
    rw [htracks.adoptedStatus hera hserving] at hcandidate
    rcases htracks.fold hinv []
      (max r.progress.committed (min frontier r.progress.accepted)) true
      (fun slot held _ _ hget => htracks.reads slot held hget) with ⟨slot, hfold'⟩ |
      ⟨folded', hfold', hconfig, hcovered, -, hbump⟩
    · rw [hfold] at hfold'
      cases hfold'
    · rw [hfold] at hfold'
      cases hfold'
      have hdata := Replica.candidateWith_ok hcandidate
      rw [hconfig, hbump, hr.accepted] at hdata
      refine commit_refines hinv (Grows.refl a) (Advances.refl g node a) htracks hserving
        (a.nodes node).log rfl (by omega) (by rw [← hr.accepted]; omega)
        ((known_max hinv htracks hknown).le le_rfl (by omega)) (Or.inl rfl) hdata rfl
        countsOnly_default (fun _ hok => nomatch hok)
        fun a₂ hinv₂ hgrows₂ hnode effect hmem => ?_
      exact journal_applies_effective hinv₂ htracks hnode List.prefix_rfl happlies
        effect hmem

/-! ### Acknowledgements of the host -/

/-- **A plan that moves no ballot and no frontier of the log** needs no step. -/
theorem refines_steady (htracks : g.Tracks a sent node r) {plan : PlannedTransition}
    (hrecord : g.Recorded (a.nodes node) plan.candidate.toProgressData)
    (hretained : plan.candidate.retained = r.progress.retained)
    (hstays : r.progress.status ≠ .viewChange ∨
      (plan.candidate.current = r.progress.current ∧ plan.candidate.status = .viewChange))
    (hjournal : plan.journal = .none) (hcounts : CountsOnly plan.bookkeeping)
    (hoks : plan.bookkeeping.oks = [])
    (heffects : ∀ effect ∈ plan.effects, g.Effective a node effect) :
    g.Refines a sent node r plan := by
  refine ⟨a, Advances.refl g node a, htracks.landed (Grows.refl a) hrecord hretained ?_
    hcounts.view hstays ?_ hcounts.toUntouched ?_ ?_ heffects⟩
  · rw [hjournal]
    rfl
  · rw [hcounts.stalled]
    exact htracks.offered
  · intro p hp
    rw [hcounts.proposals] at hp
    cases hp
  · intro ok hok
    rw [hoks] at hok
    cases hok

theorem planApplied_refines (htracks : g.Tracks a sent node r) {slot : Nat}
    {plan : PlannedTransition} (h : r.planApplied slot = .ok plan) :
    g.Refines a sent node r plan := by
  have hr := htracks.record
  obtain ⟨expected, -, h⟩ := bind_eq_ok.mp h
  split at h
  · cases h
  · obtain ⟨applied, -, h⟩ := bind_eq_ok.mp h
    obtain ⟨candidate, hcandidate, h⟩ := bind_eq_ok.mp h
    cases pure_eq_ok.mp h
    have hdata := Replica.candidateWith_ok hcandidate
    have hsame : r.appliedStatus applied = r.progress.status := by
      unfold Replica.appliedStatus
      rw [if_neg]
      rintro ⟨hreplaying, -⟩
      rcases hr.status with ⟨hstatus, -⟩ | ⟨hstatus, -⟩ | ⟨hstatus, -⟩
      · rw [hstatus] at hreplaying
        cases hreplaying
      · rw [hstatus] at hreplaying
        cases hreplaying
      · rw [hstatus] at hreplaying
        cases hreplaying
    rw [hsame] at hdata
    refine refines_steady htracks ?_ ?_ (stays_of_same ?_ ?_) rfl
      ⟨⟨fun hne => absurd rfl hne, rfl, rfl⟩, rfl, rfl, rfl⟩ rfl fun _ hmem => nomatch hmem
    · show g.Recorded _ candidate.toProgressData
      rw [hdata]
      exact ⟨hr.config, hr.era, hr.current, hr.retained, hr.accepted, hr.committed, hr.genesis,
        hr.status⟩
    · show candidate.retained = _
      rw [hdata]
      rfl
    · show candidate.current = _
      rw [hdata]
      rfl
    · show candidate.status = _
      rw [hdata]
      rfl

theorem planCheckpointed_refines (htracks : g.Tracks a sent node r) {through : Nat}
    {plan : PlannedTransition} (h : r.planCheckpointed through = .ok plan) :
    g.Refines a sent node r plan := by
  have hr := htracks.record
  unfold Replica.planCheckpointed at h
  simp only at h
  split at h
  · cases h
  · split at h
    · exact emitPlan_refines htracks h fun _ hmem => nomatch hmem
    · obtain ⟨candidate, hcandidate, h⟩ := bind_eq_ok.mp h
      cases pure_eq_ok.mp h
      have hdata : candidate.toProgressData =
          { r.progress.toProgressData with
            checkpoint := through, revision := r.progress.revision + 1 } := by
        have hchecked := Replica.asCandidate_eq_ok.mp hcandidate
        unfold Progress.withCheckpoint at hchecked
        split at hchecked
        · cases hchecked
        · split at hchecked
          · cases hchecked
          · exact (Progress.transition_data hchecked).1
      refine refines_steady htracks ?_ ?_ (stays_of_same ?_ ?_) rfl countsOnly_default rfl
        fun _ hmem => nomatch hmem
      · show g.Recorded _ candidate.toProgressData
        rw [hdata]
        exact ⟨hr.config, hr.era, hr.current, hr.retained, hr.accepted, hr.committed, hr.genesis,
          hr.status⟩
      · show candidate.retained = _
        rw [hdata]
      · show candidate.current = _
        rw [hdata]
      · show candidate.status = _
        rw [hdata]

/-! ### Ticks -/

/-- The first primary begins to serve: the announcement it makes is known. -/
theorem promotion_refines (hinv : Inv g.setting a) (htracks : g.Tracks a sent node r)
    (h : r.promotable = true) {candidate : Progress}
    (hcandidate : r.progress.withStatus .normal = .ok candidate) :
    g.Refines a sent node r
      (r.candidatePlan candidate .none (r.broadcastCommit r.progress.committed) .tick false) := by
  have hr := htracks.record
  have hdata := (Progress.transition_data hcandidate).1
  have hne : r.progress.status ≠ .viewChange := by
    unfold Replica.promotable at h
    simp only [Bool.and_eq_true] at h
    exact (Replica.isBoot_ne (Replica.bootFenced_isBoot h.1.1.1.1.1.1)).2
  have hserving := htracks.serving hne
  refine refines_steady htracks ?_ ?_ (Or.inl hne) rfl countsOnly_default rfl
    fun effect hmem => ?_
  · show g.Recorded _ candidate.toProgressData
    rw [hdata]
    exact ⟨hr.config, hr.era, hr.current, hr.retained, hr.accepted, hr.committed, hr.genesis,
      Or.inl ⟨rfl, hserving⟩⟩
  · show candidate.retained = _
    rw [hdata]
  · obtain ⟨recipient, -, rfl⟩ := mem_sendAll hmem
    refine ⟨hr.era, ?_⟩
    show g.Known a r.progress.current r.progress.committed
    rw [hr.current, ← hserving, hr.committed]
    exact known_committed hinv node

theorem viewChangeTarget_era (htracks : g.Tracks a sent node r) {target : Ballot}
    (h : r.viewChangeTarget = some target) : target.era = 1 := by
  have hr := htracks.record
  unfold Replica.viewChangeTarget at h
  rw [hr.config, g.table_era, hr.era, if_neg (by simp)] at h
  unfold Ballot.nextInEra at h
  obtain ⟨view, -, rfl⟩ := Option.map_eq_some_iff.mp h
  exact hr.era

/-- **A tick** promotes the first primary, suspects one that is silent, or goes on with what is
open. -/
theorem planTick_refines (hinv : Inv g.setting a) (htracks : g.Tracks a sent node r)
    (hsent : ∀ e ∈ sent, g.MessageOk a e) (hwhole : a.Whole node) (hfits : TickFits sent r)
    {time : Nat} {plan : PlannedTransition} (h : r.planTick time = .ok plan)
    (hfault : plan.fault = none) : g.Refines a sent node r plan := by
  have hr := htracks.record
  obtain ⟨hagree, hoffers⟩ := hfits
  unfold Replica.planTick at h
  split at h
  · rename_i hpromotable
    obtain ⟨candidate, hcandidate, h⟩ := bind_eq_ok.mp h
    cases pure_eq_ok.mp h
    exact (promotion_refines hinv htracks hpromotable
      (Replica.asCandidate_eq_ok.mp hcandidate)).withActivity time
  · split at h
    · split at h
      · cases h
      · rename_i target htarget
        exact enterViewChange_refines hinv htracks hsent hwhole
          (viewChangeTarget_era htracks htarget) h hfault
    · split at h
      · rename_i planned hplanned
        unfold Replica.redriveOffer at hplanned
        split at hplanned
        · cases hplanned
        · rename_i offer hoffer
          simp only at hplanned
          split at hplanned
          · rename_i suffix accepted committed proof hbody
            split at hplanned
            · cases hplanned
              have hfit := hoffers offer hoffer
              unfold OfferFits at hfit
              rw [hbody] at hfit
              obtain ⟨e, he, hsender, hmessage⟩ := htracks.offered offer hoffer
              have hgap := fun hadoptable => hfit hadoptable e he hsender hmessage
              rw [← hsender, ← hmessage] at h
              rw [← hmessage] at hbody hgap
              exact planStartView_refines hinv htracks he (hsent e he) hbody hgap h hfault
            · cases hplanned
          · cases hplanned
      · split at h
        · rename_i planned hplanned
          unfold Replica.redriveWin at hplanned
          split at hplanned
          · rename_i attempt hstatus hattempt
            split at hplanned
            · cases hplanned
            · simp only at hplanned
              split at hplanned
              · cases hplanned
                obtain ⟨candidate, hcandidate, h⟩ := bind_eq_ok.mp h
                obtain ⟨-, -, hpursued⟩ := htracks.attempt attempt hattempt
                exact (htracks.pursuing hinv hwhole hattempt).continueViewChange htracks hsent
                  (htracks.identity hattempt hcandidate) rfl hpursued (hagree attempt hattempt)
                  (by simp) h hfault
              · cases hplanned
          · cases hplanned
        · split at h
          · rename_i planned hplanned
            unfold Replica.refetch at hplanned
            split at hplanned
            · cases hplanned
            · cases hplanned
              obtain ⟨asked, hasked, h⟩ := bind_eq_ok.mp h
              obtain ⟨candidate, hsame, rfl⟩ := Replica.emitPlan_ok hasked
              cases pure_eq_ok.mp h
              exact htracks.refines_same hsame rfl rfl htracks.offered
                ⟨fun hne => absurd rfl hne, rfl, rfl⟩ rfl
                (fun _ hok => absurd hok List.not_mem_nil)
                fun effect hmem => List.mem_singleton.mp hmem ▸ fetch_effective _ _ _
          · split at h
            · rename_i planned hplanned
              unfold Replica.planForcedContinuation at hplanned
              rw [htracks.reincarnation] at hplanned
              cases hplanned
            · split at h
              · rename_i planned hplanned
                unfold Replica.planExecutionContinuation at hplanned
                rw [htracks.planExecution] at hplanned
                cases hplanned
              · exact emitPlan_refines htracks h fun _ hmem => absurd hmem List.not_mem_nil

/-! ### Messages -/

/-- **A message that was sent** is taken, refused or dropped as its claims allow. -/
theorem planBody_refines (hinv : Inv g.setting a) (htracks : g.Tracks a sent node r)
    (hsent : ∀ e ∈ sent, g.MessageOk a e) (hwhole : a.Whole node) {e : Envelope} (he : e ∈ sent)
    (hfits : DeliveryFits sent r e) {time : Nat} {kind : InputKind} {plan : PlannedTransition}
    (h : r.planBody e.sender e.message time kind = .ok plan) (hfault : plan.fault = none) :
    g.Refines a sent node r plan := by
  have hmessage := hsent e he
  obtain ⟨hera, hok⟩ := hsent e he
  unfold Message.InEra at hera
  unfold DeliveryFits at hfits
  unfold Replica.planBody at h
  cases hbody : e.message.body with
  | prepare entry committed =>
    rw [hbody] at hera hok h
    exact planPrepare_refines hinv htracks hsent hwhole hera hok.1 hok.2 h hfault
  | prepareOk =>
    rw [hbody] at hera hok h
    exact planPrepareOk_refines hinv htracks hok h hfault
  | commit frontier =>
    rw [hbody] at hera hok h
    exact planCommit_refines hinv htracks hsent hwhole hera hok h hfault
  | startViewChange =>
    rw [hbody] at hera hfits h
    exact planStartViewChange_refines hinv htracks hsent hwhole hera hfits h hfault
  | doViewChange retained accepted committed suffix evidence proof =>
    rw [hbody] at hok hfits h
    obtain ⟨hkind, -⟩ := hok
    rw [hkind] at h
    refine planOrdinaryEvidence_refines hinv htracks hsent hwhole ?_ ⟨e, he, rfl, rfl⟩ hfits.1
      hfits.2 h hfault
    unfold Message.evidence
    rw [hbody, hkind]
  | startView suffix accepted committed proof =>
    rw [hbody] at hfits h
    exact planStartView_refines hinv htracks he hmessage hbody hfits h hfault
  | getState start =>
    rw [hbody] at h
    exact planGetState_refines htracks h
  | newState entries through committed more =>
    rw [hbody] at hfits h
    exact planNewState_refines hinv htracks hmessage hbody hfits h hfault
  | commitBatch slots =>
    rw [hbody] at h
    exact dropPlan_refines htracks h
  | plannedViewChange =>
    rw [hbody] at hok
    exact hok.elim
  | reincarnation _ =>
    rw [hbody] at hok
    exact hok.elim
  | gossipRequest _ =>
    rw [hbody] at hok
    exact hok.elim
  | fuse ops =>
    rw [hbody] at hok
    exact hok.elim
  | fuseOk era =>
    rw [hbody] at hok
    exact hok.elim

theorem planPeer_refines (hinv : Inv g.setting a) (htracks : g.Tracks a sent node r)
    (hsent : ∀ e ∈ sent, g.MessageOk a e) (hwhole : a.Whole node) {e : Envelope} (he : e ∈ sent)
    (hfits : DeliveryFits sent r e) {time : Nat} {kind : InputKind} {plan : PlannedTransition}
    (h : r.planPeer e.sender e.message time kind = .ok plan) (hfault : plan.fault = none) :
    g.Refines a sent node r plan := by
  unfold Replica.planPeer at h
  split at h
  · exact dropPlan_refines htracks h
  · obtain ⟨taken, htaken, h⟩ := bind_eq_ok.mp h
    split at h
    · cases pure_eq_ok.mp h
      exact (planBody_refines hinv htracks hsent hwhole he hfits htaken hfault).withActivity time
    · cases pure_eq_ok.mp h
      exact planBody_refines hinv htracks hsent hwhole he hfits htaken hfault

/-! ### Inputs -/

/-- An input of a host that reconfigures nothing. -/
def Plain : Input → Prop
  | .propose _ | .tick | .applied _ | .checkpointed _ | .adminForceView _ => True
  | .peer .. | .stabilityConfirmation .. | .reconfigure .. | .reincarnate _ | .submitPlan _ => False

instance (input : Input) : Decidable (Plain input) := by
  unfold Plain
  cases input <;> infer_instance

/-- **A planned input of the host** is a move of its node. -/
theorem plan_refines (hinv : Inv g.setting a) (htracks : g.Tracks a sent node r)
    (hsent : ∀ e ∈ sent, g.MessageOk a e) (hwhole : a.Whole node) {input : TimedInput}
    (hplain : Plain input.event) (hfits : input.event = .tick → TickFits sent r)
    {plan : PlannedTransition} (h : r.plan input = .ok plan) (hfault : plan.fault = none) :
    g.Refines a sent node r plan := by
  obtain ⟨time, event⟩ := input
  unfold Replica.plan at h
  simp only at h
  split at h
  · cases h
  · split at h
    · cases h
    · have hparked : ∀ planned : Planned, r.refuseIfParked planned = planned := by
        intro planned
        unfold Replica.refuseIfParked
        rw [htracks.parked]
        rfl
      simp only [hparked] at h
      cases event with
      | peer sender message => exact hplain.elim
      | propose operation => exact planPropose_refines hinv htracks hwhole h
      | tick => exact planTick_refines hinv htracks hsent hwhole (hfits rfl) h hfault
      | stabilityConfirmation revision result => exact hplain.elim
      | applied slot => exact planApplied_refines htracks h
      | checkpointed through => exact planCheckpointed_refines htracks h
      | reconfigure op pivot => exact hplain.elim
      | adminForceView target => exact planAdminForceView_refines hinv htracks hsent hwhole h hfault
      | reincarnate old => exact hplain.elim
      | submitPlan plan => exact hplain.elim

/-- **A planned delivery** is a move of its node. -/
theorem plan_delivery_refines (hinv : Inv g.setting a) (htracks : g.Tracks a sent node r)
    (hsent : ∀ e ∈ sent, g.MessageOk a e) (hwhole : a.Whole node) {e : Envelope} (he : e ∈ sent)
    (hfits : DeliveryFits sent r e) {time : Nat} {plan : PlannedTransition}
    (h : r.plan { time := time, event := .peer e.sender e.message } = .ok plan)
    (hfault : plan.fault = none) : g.Refines a sent node r plan := by
  unfold Replica.plan at h
  simp only at h
  split at h
  · cases h
  · split at h
    · cases h
    · unfold Replica.refuseIfParked at h
      rw [htracks.parked] at h
      exact planPeer_refines hinv htracks hsent hwhole he hfits h hfault

end Genesis

end UvrrCore
