import UvrrCore.Life
import UvrrCore.Promise.Kept

/-!
# What a plan sends

A condition on messages, which may speak of the record behind the plan, holds of everything a
replica sends once it holds of each form of message: `Licence` lists the forms, and one lemma for
each handler says that it sends nothing else.

* The reports of an attempt meet a condition of their own, which the announced suffixes inherit.
* `plan_speaks`: every plan of a fresh input.
-/

namespace UvrrCore

/-- A condition on the message of an effect. -/
def Effect.Says (P : Message → Prop) : Effect → Prop
  | .send _ _ message => P message
  | .persist _ | .apply _ _ _ | .adminResponse _ => True

/-- A condition on every message that is sent. -/
def Sending (P : Message → Prop) (effects : List Effect) : Prop :=
  ∀ effect ∈ effects, effect.Says P

namespace Sending

variable {P : Message → Prop} {xs ys : List Effect}

theorem nil : Sending P [] := by
  intro effect hmem
  cases hmem

theorem append (hx : Sending P xs) (hy : Sending P ys) : Sending P (xs ++ ys) := by
  intro effect hmem
  rcases List.mem_append.mp hmem with hmem | hmem
  · exact hx effect hmem
  · exact hy effect hmem

theorem single {effect : Effect} (h : effect.Says P) : Sending P [effect] := by
  intro other hmem
  rw [List.mem_singleton.mp hmem]
  exact h

theorem cons {effect : Effect} (h : effect.Says P) (hx : Sending P xs) :
    Sending P (effect :: xs) := (single h).append hx

theorem sendAll {recipients : List Nat} {era : Nat} {message : Message} (h : P message) :
    Sending P (Replica.sendAll recipients era message) := by
  intro effect hmem
  obtain ⟨recipient, -, rfl⟩ := mem_sendAll hmem
  exact h

theorem applyRange {read : Nat → Option LogEntry} {left slot : Nat} {effects : List Effect}
    (h : UvrrCore.applyRange read left slot = .ok effects) : Sending P effects := by
  intro effect hmem
  obtain ⟨_, _, _, _, rfl, -⟩ := applyRange_mem h hmem
  trivial

end Sending

/-- The messages that say nothing of the history or the standing of their sender. -/
def Body.isPlain : Body → Bool
  | .prepareOk | .startViewChange | .doViewChange .. | .startView .. | .newState .. => false
  | _ => true

/-- The suffix of a report meets a condition. -/
def Message.Reports (F : List LogEntry → Nat → Prop) (message : Message) : Prop :=
  ∀ {retained accepted committed suffix kind proof},
    message.body = .doViewChange retained accepted committed suffix kind proof → F suffix accepted

namespace Replica

variable {J : Type} [Journal J]

/-- **What a replica may send**, in a condition `P` on the record behind a plan and a message of
it. The suffixes it packs and collects meet `F`. -/
structure Licence (r : Replica J) (F : List LogEntry → Nat → Prop)
    (P : ProgressData → Message → Prop) : Prop where
  plain : ∀ {record message}, message.body.isPlain = true → P record message
  acknowledges : ∀ {record slot}, slot ≤ record.accepted →
    P record { header := { view := r.progress.current, slot := slot }, body := .prepareOk }
  fences : ∀ {record view slot}, view = record.current →
    P record { header := { view := view, slot := slot }, body := .startViewChange }
  reports : ∀ {record message retained accepted committed suffix kind proof},
    message.body = .doViewChange retained accepted committed suffix kind proof →
    F suffix accepted → P record message
  announces : ∀ {record view slot suffix accepted committed proof}, view = record.current →
    F suffix accepted →
    P record { header := { view := view, slot := slot }
               body := .startView suffix accepted committed proof }
  serves : ∀ {record header budget left slot bytes through committed more},
    P record { header := header
               body := .newState (packChunk r.journal budget left slot bytes) through committed
                 more }
  packs : ∀ {overlay frontier}, F overlay frontier →
    F (r.boundedSuffix frontier overlay) frontier
  bare : ∀ {frontier}, F [] frontier
  collected : ∀ attempt, r.viewChange = some attempt → attempt.Reported F

/-- A condition on what a plan sends, in the record behind it. -/
def Speaks (P : ProgressData → Message → Prop) (plan : PlannedTransition) : Prop :=
  Sending (P plan.candidate.toProgressData) plan.effects

variable {F : List LogEntry → Nat → Prop} {P : ProgressData → Message → Prop}
  {r : Replica J} {plan : PlannedTransition} {kind : InputKind} {time : Nat}

theorem Licence.ownEvidence (hl : r.Licence F P) :
    F r.ownEvidence.suffix r.ownEvidence.accepted := hl.packs hl.bare

/-! ### Plain transitions -/

omit [Journal J] in
theorem emitPlan_speaks {effects : List Effect} (h : r.emitPlan effects kind = .ok plan)
    (hsending : ∀ record, Sending (P record) effects) : Speaks P plan := by
  obtain ⟨candidate, -, rfl⟩ := emitPlan_ok h
  exact hsending _

omit [Journal J] in
theorem dropPlan_speaks {diagnostic : Diagnostic} (h : r.dropPlan diagnostic kind = .ok plan) :
    Speaks P plan := by
  obtain ⟨candidate, -, rfl⟩ := dropPlan_ok h
  exact .nil

omit [Journal J] in
theorem breachPlan_speaks (h : r.breachPlan kind = .ok plan) : Speaks P plan := by
  obtain ⟨candidate, -, rfl⟩ := breachPlan_ok h
  exact .nil

section Licensed

variable (hl : r.Licence F P)
include hl

theorem withFetch_speaks (h : Speaks P plan) (view : Ballot)
    (recipient start : Nat) : Speaks P (plan.withFetch (fetch view recipient start)) :=
  Sending.append h (.single (hl.plain rfl))

/-! ### View changes -/

theorem recordOwnEvidence_speaks {config : Configuration}
    {attempt attempt' : ViewChangeVolatile} {effects effects' : List Effect}
    (h : r.recordOwnEvidence config attempt effects = .ok (attempt', effects'))
    (hattempt : attempt.Reported F) :
    attempt'.Reported F ∧ ∀ record, Sending (P record) effects → Sending (P record) effects' := by
  unfold recordOwnEvidence at h
  split at h
  · cases h
    exact ⟨hattempt, fun _ => id⟩
  · split at h
    · cases h
      exact ⟨hattempt, fun _ => id⟩
    · simp only at h
      have hreported : ({ attempt with
          evidence := attempt.evidence.insert r.own r.ownEvidence } :
          ViewChangeVolatile).Reported F := insert_reported hattempt hl.ownEvidence
      split at h
      · cases h
        exact ⟨hreported, fun _ => id⟩
      · obtain ⟨report, hreport, h⟩ := bind_eq_ok.mp h
        cases pure_eq_ok.mp h
        refine ⟨hreported, fun _ hsending => hsending.append (.single ?_)⟩
        unfold doViewChangeEffect at hreport
        split at hreport
        · cases hreport
        · obtain ⟨proof, -, hreport⟩ := bind_eq_ok.mp hreport
          cases pure_eq_ok.mp hreport
          exact hl.reports rfl hl.ownEvidence

theorem planWinView_speaks {target : Ballot} {selected : Evidence}
    {evidence : OrdMap Nat Evidence} {effects : List Effect}
    (hselected : F selected.suffix selected.accepted)
    (hsending : ∀ record, record.current = target → Sending (P record) effects)
    (h : r.planWinView target selected evidence effects time kind = .ok (.installed plan)) :
    Speaks P plan := by
  simp only [planWinView] at h
  split at h
  · cases h
  · split at h
    · cases h
    · obtain ⟨breach, hbreach, h⟩ := bind_eq_ok.mp h
      cases pure_eq_ok.mp h
      exact breachPlan_speaks hbreach
    · obtain ⟨applied, -, h⟩ := bind_eq_ok.mp h
      split at h
      · cases h
      · obtain ⟨drop, hdrop, h⟩ := bind_eq_ok.mp h
        cases pure_eq_ok.mp h
        have hsending : Speaks P _ := dropPlan_speaks hdrop
        exact hsending
      · obtain ⟨breach, hbreach, h⟩ := bind_eq_ok.mp h
        cases pure_eq_ok.mp h
        exact breachPlan_speaks hbreach
      · obtain ⟨candidate, hcandidate, h⟩ := bind_eq_ok.mp h
        obtain ⟨applies, happlies, h⟩ := bind_eq_ok.mp h
        obtain ⟨announcements, hannounce, h⟩ := bind_eq_ok.mp h
        cases pure_eq_ok.mp h
        obtain ⟨proof, -, hannounce⟩ := bind_eq_ok.mp hannounce
        cases pure_eq_ok.mp hannounce
        have hcurrent : candidate.current = target := by rw [installCandidate_ok hcandidate]; rfl
        exact ((hsending _ hcurrent).append (.applyRange happlies)).append
          (.sendAll (hl.announces hcurrent.symm (hl.packs hselected)))

theorem continueViewChange_speaks {candidate : Progress}
    {attempt : ViewChangeVolatile} {effects : List Effect} (hattempt : attempt.Reported F)
    (hsending : ∀ record, record = candidate.toProgressData ∨ record.current = attempt.target →
      Sending (P record) effects)
    (h : r.continueViewChange candidate attempt effects time kind = .ok plan) :
    Speaks P plan := by
  simp only [continueViewChange] at h
  split at h
  · exact dropPlan_speaks h
  · rename_i record _
    obtain ⟨⟨recorded, effects'⟩, hrecorded, h⟩ := bind_eq_ok.mp h
    obtain ⟨hreported, hrecord⟩ := recordOwnEvidence_speaks hl hrecorded hattempt
    have hkept := hrecord _ (hsending _ (.inl rfl))
    split at h
    · have hselecting : (r.selectOnQuorum record.config recorded).Reported F :=
        selectOnQuorum_reported hreported
      split at h
      · cases pure_eq_ok.mp h
        exact hkept
      · rename_i reporter selected hselected
        obtain ⟨outcome, houtcome, h⟩ := bind_eq_ok.mp h
        split at h
        · cases pure_eq_ok.mp h
          refine planWinView_speaks hl (hselecting.selected _ _ hselected)
            (fun other hcurrent => hrecord _ (hsending _ (.inr ?_))) houtcome
          exact hcurrent
        · cases planWinView_insufficient houtcome
          split at h
          · cases pure_eq_ok.mp h
            exact Sending.append hkept (.single (hl.plain rfl))
          · cases pure_eq_ok.mp h
            exact hkept
    · cases pure_eq_ok.mp h
      exact hkept

theorem enterViewChange_speaks {target : Ballot} {heard : OrdMap Nat Unit}
    (h : r.enterViewChange target heard time kind = .ok plan) : Speaks P plan := by
  obtain ⟨candidate, hcandidate, h⟩ := bind_eq_ok.mp h
  have hcurrent : candidate.current = target := by
    rw [(withViewChange_ok (asCandidate_eq_ok.mp hcandidate)).2]
  refine continueViewChange_speaks hl ⟨fun node report hget => ?_, fun _ _ hnone => ?_⟩
    (fun record hrecord => .sendAll (hl.fences ?_)) h
  · cases hget
  · cases hnone
  · rcases hrecord with rfl | hrecord
    · exact hcurrent.symm
    · exact hrecord.symm

theorem planAdminForceView_speaks {target : Ballot}
    (h : r.planAdminForceView target time = .ok plan) : Speaks P plan := by
  simp only [planAdminForceView] at h
  split at h
  · cases h
  · split at h
    · cases h
    · split at h
      · cases h
      · exact enterViewChange_speaks hl h

theorem planHigherViewSignal_speaks {sender : Nat} {view : Ballot}
    (h : r.planHigherViewSignal sender view time kind = .ok plan) : Speaks P plan := by
  obtain ⟨entered, hentered, h⟩ := bind_eq_ok.mp h
  have hsending : Speaks P _ := enterViewChange_speaks hl hentered
  split at h
  · cases pure_eq_ok.mp h
    exact withFetch_speaks hl hsending _ _ _
  · cases pure_eq_ok.mp h
    exact hsending

/-- An open attempt carried on. -/
theorem carryOn_speaks {attempt : ViewChangeVolatile}
    (hattempt : attempt.Reported F)
    (h : (do
      let candidate ← r.identityCandidate
      r.continueViewChange candidate attempt [] time kind) = .ok plan) : Speaks P plan := by
  obtain ⟨candidate, -, h⟩ := bind_eq_ok.mp h
  exact continueViewChange_speaks hl hattempt (fun _ _ => .nil) h

theorem planStartViewChange_speaks {sender : Nat} {message : Message}
    (h : r.planStartViewChange sender message time kind = .ok plan) : Speaks P plan := by
  simp only [planStartViewChange] at h
  split at h
  · exact dropPlan_speaks h
  · split at h
    · exact dropPlan_speaks h
    · split at h
      · split at h
        · exact dropPlan_speaks h
        · exact enterViewChange_speaks hl h
      · rename_i attempt hopen
        split at h
        · exact dropPlan_speaks h
        · split at h
          · exact enterViewChange_speaks hl h
          · have hattempt := hl.collected attempt hopen
            have hheard : ({ attempt with fences := attempt.fences.insert sender () } :
                ViewChangeVolatile).Reported F := ⟨hattempt.evidence, hattempt.selected⟩
            exact carryOn_speaks hl hheard h

theorem planOrdinaryEvidence_speaks {sender : Nat} {message : Message}
    {evidence : Evidence} {proof : EraProof} (hevidence : F evidence.suffix evidence.accepted)
    (h : r.planOrdinaryEvidence sender message evidence proof time kind = .ok plan) :
    Speaks P plan := by
  simp only [planOrdinaryEvidence] at h
  split at h
  · exact dropPlan_speaks h
  · split at h
    · exact dropPlan_speaks h
    · split at h
      · exact dropPlan_speaks h
      · split at h
        · exact dropPlan_speaks h
        · rename_i attempt hopen
          split at h
          · exact dropPlan_speaks h
          · split at h
            · exact dropPlan_speaks h
            · refine carryOn_speaks hl ?_ h
              have hattempt := hl.collected attempt hopen
              unfold collectEvidence
              split
              · exact ⟨hattempt.evidence, hattempt.selected⟩
              · exact insert_reported hattempt hevidence

theorem planStartView_speaks {sender : Nat} {message : Message} {suffix : List LogEntry}
    {accepted committed : Nat} {proof : EraProof}
    (h : r.planStartView sender message suffix accepted committed proof time kind = .ok plan) :
    Speaks P plan := by
  cases planStartView_cases h with
  | unevaluable _ hoffer =>
    obtain ⟨drop, hdrop, rfl | rfl | ⟨next, rfl⟩⟩ := planUnevaluableOffer_ok hoffer
    · exact dropPlan_speaks hdrop
    · have hsending : Speaks P drop := dropPlan_speaks hdrop
      exact hsending
    · have hsending : Speaks P drop := dropPlan_speaks hdrop
      exact Sending.append hsending (.single (hl.plain rfl))
  | dropped _ hdrop => exact dropPlan_speaks hdrop
  | breached hbreach => exact breachPlan_speaks hbreach
  | gap expected got drop hdrop hplan =>
    subst hplan
    exact withFetch_speaks hl (dropPlan_speaks hdrop) _ _ _
  | installed record _ _ _ _ _ mutation _ applied _ folded _ candidate _ effects happlies hplan =>
    subst hplan
    exact .applyRange happlies

/-! ### Normal operation -/

theorem proposalPlan_speaks {entries : List LogEntry} {last : Nat} {recipients : List Nat}
    {era : Nat} {message : Message} {planned : Update PlannedOverlap}
    (hmessage : message.body.isPlain = true)
    (h : r.proposalPlan entries last recipients era message planned kind = .ok plan) :
    Speaks P plan := by
  obtain ⟨candidate, -, h⟩ := bind_eq_ok.mp h
  cases pure_eq_ok.mp h
  exact .sendAll (hl.plain hmessage)

theorem planPropose_speaks {operation : Operation} (h : r.planPropose operation = .ok plan) :
    Speaks P plan := by
  obtain ⟨record, -, h⟩ := bind_eq_ok.mp h
  obtain ⟨slot, -, h⟩ := bind_eq_ok.mp h
  exact proposalPlan_speaks hl rfl h

/-- The acknowledgement of an accepted entry goes out with what its commit applies. -/
theorem acceptance_speaks {read : Nat → Option LogEntry} {left start sender slot : Nat}
    {applies : List Effect} (h : applyRange read left start = .ok applies)
    {record : ProgressData} (hslot : slot ≤ record.accepted) :
    Sending (P record) (prepareOk r.progress.current sender slot :: applies) :=
  .cons (hl.acknowledges hslot) (.applyRange h)

theorem planHeldPrepare_speaks {sender : Nat} {entry : LogEntry} {piggybacked : Nat}
    {status : Status} (hslot : entry.slot ≤ r.progress.accepted)
    (h : r.planHeldPrepare sender entry piggybacked status kind = .ok plan) :
    Speaks P plan := by
  simp only [planHeldPrepare] at h
  split at h
  · cases h
  · split at h
    · exact dropPlan_speaks h
    · split at h
      · cases h
      · exact dropPlan_speaks h
      · exact breachPlan_speaks h
      · obtain ⟨applied, -, h⟩ := bind_eq_ok.mp h
        obtain ⟨candidate, hcandidate, h⟩ := bind_eq_ok.mp h
        obtain ⟨applies, happlies, h⟩ := bind_eq_ok.mp h
        cases pure_eq_ok.mp h
        refine acceptance_speaks hl happlies ?_
        rw [show (r.candidatePlan candidate _ _ _ _).candidate = candidate from rfl,
          candidateWith_ok hcandidate]
        exact hslot

theorem planNextPrepare_speaks {sender : Nat} {view : Ballot} {entry : LogEntry}
    {piggybacked : Nat} {status : Status}
    (h : r.planNextPrepare sender view entry piggybacked status kind = .ok plan) :
    Speaks P plan := by
  simp only [planNextPrepare] at h
  split at h
  · cases h
  · exact dropPlan_speaks h
  · split at h
    · exact dropPlan_speaks h
    · exact breachPlan_speaks h
  · obtain ⟨refusal, -, h⟩ := bind_eq_ok.mp h
    split at h
    · exact dropPlan_speaks h
    · split at h
      · exact dropPlan_speaks h
      · obtain ⟨applied, -, h⟩ := bind_eq_ok.mp h
        obtain ⟨candidate, hcandidate, h⟩ := bind_eq_ok.mp h
        obtain ⟨applies, happlies, h⟩ := bind_eq_ok.mp h
        cases pure_eq_ok.mp h
        refine acceptance_speaks hl happlies ?_
        rw [show (r.candidatePlan candidate _ _ _ _).candidate = candidate from rfl,
          candidateWith_ok hcandidate]
        exact Nat.le_refl _

theorem planPrepare_speaks {sender : Nat} {message : Message} {entry : LogEntry}
    {piggybacked : Nat}
    (h : r.planPrepare sender message entry piggybacked time kind = .ok plan) :
    Speaks P plan := by
  cases planPrepare_cases h with
  | dropped _ hdrop => exact dropPlan_speaks hdrop
  | signalled _ hsignal => exact planHigherViewSignal_speaks hl hsignal
  | held _ _ hle hheld => exact planHeldPrepare_speaks hl hle hheld
  | gap next drop hdrop hplan =>
    subst hplan
    exact withFetch_speaks hl (dropPlan_speaks hdrop) _ _ _
  | next _ _ _ hnext => exact planNextPrepare_speaks hl hnext

theorem commitBatchEffects_speaks (record : ProgressData) (through rounds slot : Nat) :
    Sending (P record) (r.commitBatchEffects through rounds slot) := by
  induction rounds generalizing slot with
  | zero => exact .nil
  | succ rounds ih =>
    unfold commitBatchEffects
    simp only
    split
    · exact .nil
    · split
      · exact .nil
      · split
        · exact ih _
        · refine .append ?_ (ih _)
          split
          · exact .sendAll (hl.plain rfl)
          · exact .nil

theorem overlapSolicitation_speaks (record : ProgressData) {config config' : EraTable}
    {covered : Nat} {effects : List Effect} {planned : Update PlannedOverlap}
    (h : r.overlapSolicitation config covered = .ok (config', effects, planned)) :
    Sending (P record) effects := by
  unfold overlapSolicitation at h
  split at h
  · cases h
    exact .nil
  · split at h
    · cases h
      exact .nil
    · split at h
      · cases h
      · cases h
        exact .sendAll (hl.plain rfl)

theorem finishCommitQuorum_speaks {committed : Nat} {oks : List (Nat × Nat)}
    (h : r.finishCommitQuorum committed oks kind = .ok plan) : Speaks P plan := by
  simp only [finishCommitQuorum] at h
  split at h
  · obtain ⟨emitted, hemitted, h⟩ := bind_eq_ok.mp h
    cases pure_eq_ok.mp h
    have hsending : Speaks P _ := emitPlan_speaks hemitted fun _ => .nil
    exact hsending
  · split at h
    · cases h
    · exact dropPlan_speaks h
    · exact breachPlan_speaks h
    · obtain ⟨⟨config, solicitation, planned⟩, hsolicit, h⟩ := bind_eq_ok.mp h
      obtain ⟨applied, -, h⟩ := bind_eq_ok.mp h
      obtain ⟨candidate, -, h⟩ := bind_eq_ok.mp h
      obtain ⟨applies, happlies, h⟩ := bind_eq_ok.mp h
      cases pure_eq_ok.mp h
      have hcommit : ∀ frontier,
          Sending (P candidate.toProgressData) (r.broadcastCommit frontier) :=
        fun _ => .sendAll (hl.plain rfl)
      exact (((Sending.applyRange happlies).append (hcommit _)).append
        (commitBatchEffects_speaks hl _ _ _ _)).append (overlapSolicitation_speaks hl _ hsolicit)

theorem countVote_speaks {sender slot : Nat} {unknown learner foreign duplicate : Diagnostic}
    (h : r.countVote sender slot unknown learner foreign duplicate kind = .ok plan) :
    Speaks P plan := by
  simp only [countVote] at h
  split at h
  · exact dropPlan_speaks h
  · obtain ⟨finished, hfinished, h⟩ := bind_eq_ok.mp h
    cases pure_eq_ok.mp h
    have hsending : Speaks P _ := finishCommitQuorum_speaks hl hfinished
    exact hsending
  · split at h
    · exact dropPlan_speaks h
    · split at h
      · exact dropPlan_speaks h
      · exact finishCommitQuorum_speaks hl h

theorem planPrepareOk_speaks {sender : Nat} {message : Message}
    (h : r.planPrepareOk sender message kind = .ok plan) : Speaks P plan := by
  simp only [planPrepareOk] at h
  split at h
  · exact dropPlan_speaks h
  · split at h
    · exact dropPlan_speaks h
    · exact countVote_speaks hl h

theorem planFuseOk_speaks {sender : Nat} {message : Message}
    (h : r.planFuseOk sender message kind = .ok plan) : Speaks P plan := by
  simp only [planFuseOk] at h
  split at h
  · exact dropPlan_speaks h
  · split at h
    · exact dropPlan_speaks h
    · exact countVote_speaks hl h

theorem planCommit_speaks {sender : Nat} {message : Message} {frontier : Nat}
    (h : r.planCommit sender message frontier time kind = .ok plan) : Speaks P plan := by
  cases planCommit_cases h with
  | dropped _ hdrop => exact dropPlan_speaks hdrop
  | breached hbreach => exact breachPlan_speaks hbreach
  | signalled _ hsignal => exact planHigherViewSignal_speaks hl hsignal
  | steady hemit => exact emitPlan_speaks hemit fun _ => .nil
  | learned _ _ folded applied candidate applies _ _ _ happlies hplan =>
    subst hplan
    exact .applyRange happlies

/-! ### Reconfiguration -/

theorem planReconfigure_speaks {op : SystemOperation} {pivot : Option Pivot}
    (h : r.planReconfigure op pivot = .ok plan) : Speaks P plan := by
  obtain ⟨record, -, h⟩ := bind_eq_ok.mp h
  obtain ⟨slot, -, h⟩ := bind_eq_ok.mp h
  obtain ⟨table, -, h⟩ := bind_eq_ok.mp h
  obtain ⟨⟨recipients, planned⟩, -, h⟩ := bind_eq_ok.mp h
  exact proposalPlan_speaks hl rfl h

theorem planFuseBatch_speaks {ops : List SystemOperation}
    (h : r.planFuseBatch ops = .ok plan) : Speaks P plan := by
  obtain ⟨record, -, h⟩ := bind_eq_ok.mp h
  obtain ⟨firstSlot, -, h⟩ := bind_eq_ok.mp h
  obtain ⟨table, -, h⟩ := bind_eq_ok.mp h
  obtain ⟨eras, -, h⟩ := bind_eq_ok.mp h
  obtain ⟨entries, -, h⟩ := bind_eq_ok.mp h
  split at h
  · cases h
  · exact proposalPlan_speaks hl rfl h

theorem planStepProposal_speaks {batch : SystemOperation}
    (h : r.planStepProposal batch = .ok plan) : Speaks P plan := by
  unfold planStepProposal at h
  split at h
  · split at h
    · exact planFuseBatch_speaks hl h
    · exact planReconfigure_speaks hl h
  · exact planReconfigure_speaks hl h

theorem planFuse_speaks {sender : Nat} {message : Message}
    {ops : List SystemOperation} (h : r.planFuse sender message ops time kind = .ok plan) :
    Speaks P plan := by
  cases planFuse_cases h with
  | dropped _ hdrop => exact dropPlan_speaks hdrop
  | signalled _ hsignal => exact planHigherViewSignal_speaks hl hsignal
  | next _ _ eras current entries last candidate _ _ _ _ hplan =>
    subst hplan
    exact .single (hl.plain rfl)

theorem planPlannedViewChange_speaks {sender : Nat} {message : Message}
    (h : r.planPlannedViewChange sender message kind = .ok plan) : Speaks P plan := by
  simp only [planPlannedViewChange] at h
  split at h
  · split at h
    · exact dropPlan_speaks h
    · exact dropPlan_speaks h
  · split at h
    · exact dropPlan_speaks h
    · split at h
      · exact dropPlan_speaks h
      · obtain ⟨proof, -, h⟩ := bind_eq_ok.mp h
        obtain ⟨emitted, hemitted, h⟩ := bind_eq_ok.mp h
        have hsending : Speaks P _ := emitPlan_speaks hemitted fun _ =>
          .single (hl.reports rfl hl.ownEvidence)
        split at h
        · cases pure_eq_ok.mp h
          exact withFetch_speaks hl hsending _ _ _
        · cases pure_eq_ok.mp h
          exact hsending

theorem planPlannedEvidence_speaks {sender : Nat} {message : Message}
    {evidence : Evidence} {proof : EraProof}
    (h : r.planPlannedEvidence sender message evidence proof time kind = .ok plan) :
    Speaks P plan := by
  simp only [planPlannedEvidence] at h
  split at h
  · exact dropPlan_speaks h
  · split at h
    · exact dropPlan_speaks h
    · split at h
      · exact dropPlan_speaks h
      · split at h
        · cases h
        · split at h
          · exact dropPlan_speaks h
          · split at h
            · obtain ⟨candidate, hcandidate, h⟩ := bind_eq_ok.mp h
              obtain ⟨proof, -, h⟩ := bind_eq_ok.mp h
              cases pure_eq_ok.mp h
              refine .sendAll (hl.announces ?_ hl.ownEvidence)
              rw [show (PlannedTransition.withBookkeeping _ _).candidate = candidate from rfl,
                installCandidate_ok hcandidate]
              rfl
            · obtain ⟨emitted, hemitted, h⟩ := bind_eq_ok.mp h
              cases pure_eq_ok.mp h
              have hsending : Speaks P _ := emitPlan_speaks hemitted fun _ => .nil
              exact hsending

/-! ### Transfer -/

theorem chunkCursor_speaks (record : ProgressData) (view : Ballot) (sender accepted : Nat)
    (onward : Bool) : Sending (P record) (chunkCursor view sender accepted onward).1 := by
  unfold chunkCursor
  split
  · split
    · exact .single (hl.plain rfl)
    · exact .nil
  · exact .nil

theorem installChunk_speaks {sender : Nat} {view : Ballot} {entries : List LogEntry}
    {through : Nat} {more : Bool} {folded : FoldedCommit} {mutation : JournalMutation}
    (h : r.installChunk sender view entries through more folded mutation kind = .ok plan) :
    Speaks P plan := by
  obtain ⟨applies, happlies, h⟩ := bind_eq_ok.mp h
  obtain ⟨walkedView, -, h⟩ := bind_eq_ok.mp h
  obtain ⟨applied, -, h⟩ := bind_eq_ok.mp h
  obtain ⟨candidate, -, h⟩ := bind_eq_ok.mp h
  cases pure_eq_ok.mp h
  refine Sending.append ?_ (chunkCursor_speaks hl _ _ _ _ _)
  unfold chunkApplies at happlies
  split at happlies
  · exact .applyRange happlies
  · cases happlies
    exact .nil

theorem planNewState_speaks {sender : Nat} {message : Message} {entries : List LogEntry}
    {through committed : Nat} {more : Bool}
    (h : r.planNewState sender message entries through committed more kind = .ok plan) :
    Speaks P plan := by
  cases planNewState_cases h with
  | dropped _ hdrop => exact dropPlan_speaks hdrop
  | breached hbreach => exact breachPlan_speaks hbreach
  | closed emitted hemit hplan =>
    subst hplan
    have hsending : Speaks P _ := emitPlan_speaks hemit fun _ => .nil
    exact hsending
  | installed record _ _ _ _ _ _ whole _ folded _ mutation _ hinstall =>
    exact installChunk_speaks hl hinstall

theorem planGetState_speaks {sender : Nat} {message : Message} {start : Nat}
    (h : r.planGetState sender message start kind = .ok plan) : Speaks P plan := by
  simp only [planGetState] at h
  split at h
  · exact dropPlan_speaks h
  · split at h
    · exact dropPlan_speaks h
    · exact dropPlan_speaks h
    · exact dropPlan_speaks h
    all_goals
      split at h
      · exact dropPlan_speaks h
      · rename_i last _
        exact emitPlan_speaks h fun _ => .single hl.serves

/-! ### Reincarnation and plans -/

theorem missedRangePush_speaks (record : ProgressData) (view : Ballot)
    (recipient prepared : Nat) :
    Sending (P record) (r.missedRangePush view recipient prepared).toList := by
  unfold missedRangePush
  simp only
  split
  · exact .nil
  · split
    · exact .nil
    · rename_i last _
      exact .single hl.serves

omit hl [Journal J] in
theorem establishingPrepare_plain {effects : List Effect} {message : Message}
    (h : establishingPrepare effects = some message) : message.body.isPlain = true := by
  induction effects with
  | nil => cases h
  | cons effect rest ih =>
    cases effect with
    | send recipient era other =>
      unfold establishingPrepare at h
      split at h
      · rename_i entry committed hbody
        cases h
        rw [hbody]
        rfl
      · exact ih h
    | _ => exact ih h

theorem establishingCopy_speaks (record : ProgressData) (effects : List Effect)
    (recipient era : Nat) :
    Sending (P record) ((establishingPrepare effects).map fun establishing =>
      Effect.send recipient era establishing).toList := by
  intro effect hmem
  rw [Option.mem_toList, Option.map_eq_some_iff] at hmem
  obtain ⟨message, hmessage, rfl⟩ := hmem
  exact hl.plain (establishingPrepare_plain hmessage)

theorem planReincarnation_speaks {sender : Nat} {message : Message}
    (h : r.planReincarnation sender message kind = .ok plan) : Speaks P plan := by
  simp only [planReincarnation] at h
  split at h
  · split at h
    · exact dropPlan_speaks h
    · split at h
      · cases h
      · split at h
        · obtain ⟨drop, hdrop, h⟩ := bind_eq_ok.mp h
          cases pure_eq_ok.mp h
          exact Sending.append (dropPlan_speaks hdrop) (missedRangePush_speaks hl _ _ _ _)
        · split at h
          · obtain ⟨proposal, hproposal, h⟩ := bind_eq_ok.mp h
            cases pure_eq_ok.mp h
            exact ((missedRangePush_speaks hl _ _ _ _).append
              (planReconfigure_speaks hl hproposal)).append (establishingCopy_speaks hl _ _ _ _)
          · obtain ⟨drop, hdrop, h⟩ := bind_eq_ok.mp h
            cases pure_eq_ok.mp h
            exact Sending.append (dropPlan_speaks hdrop) (missedRangePush_speaks hl _ _ _ _)
  · exact dropPlan_speaks h

theorem planGossipRequest_speaks {sender : Nat} {message : Message}
    (h : r.planGossipRequest sender message kind = .ok plan) : Speaks P plan := by
  simp only [planGossipRequest] at h
  split at h
  · split at h
    · exact dropPlan_speaks h
    · obtain ⟨drop, hdrop, h⟩ := bind_eq_ok.mp h
      cases pure_eq_ok.mp h
      exact (Sending.append (dropPlan_speaks hdrop) (missedRangePush_speaks hl _ _ _ _)).append
        (.single (hl.plain rfl))
  · exact dropPlan_speaks h

theorem planForcedContinuation_speaks {planned : Planned}
    (hsome : r.planForcedContinuation = some planned) (h : planned = .ok plan) :
    Speaks P plan := by
  simp only [planForcedContinuation] at hsome
  split at hsome
  · cases hsome
  · split at hsome
    · cases hsome
    · split at hsome
      · split at hsome
        · rename_i emitted hemitted
          rw [← Option.some.inj hsome] at h
          cases h
          have hsending : Speaks P _ := emitPlan_speaks hemitted fun _ => .nil
          exact hsending
        · cases hsome
      · split at hsome
        · rw [← Option.some.inj hsome] at h
          obtain ⟨proposal, hproposal, h⟩ := bind_eq_ok.mp h
          cases pure_eq_ok.mp h
          have hsending : Speaks P _ := planReconfigure_speaks hl hproposal
          exact hsending
        · cases hsome

theorem planReincarnate_speaks {old : Nat}
    (h : r.planReincarnate old kind = .ok plan) : Speaks P plan := by
  rcases planReincarnate_ok h with hdrop | ⟨announcement, -, hbody, -, ⟨-, hled⟩ | ⟨-, hsent⟩⟩
  · exact dropPlan_speaks hdrop
  · exact planReincarnation_speaks hl hled
  · refine emitPlan_speaks hsent fun _ => .sendAll (hl.plain ?_)
    rw [hbody]
    rfl

theorem planSubmitPlan_speaks {submitted : Plan}
    (h : r.planSubmitPlan submitted kind = .ok plan) : Speaks P plan := by
  have hanswer : ∀ {verdict : PlanVerdict} {p : PlannedTransition},
      r.adminVerdict verdict kind = .ok p → Speaks P p := fun hp =>
    emitPlan_speaks hp fun _ => .single trivial
  simp only [planSubmitPlan] at h
  split at h
  · exact hanswer h
  · split at h
    · exact hanswer h
    · split at h
      · exact hanswer h
      · split at h
        · obtain ⟨proposal, hproposal, h⟩ := bind_eq_ok.mp h
          cases pure_eq_ok.mp h
          exact Sending.append (planStepProposal_speaks hl hproposal) (.single trivial)
        · obtain ⟨answer, hanswered, h⟩ := bind_eq_ok.mp h
          cases pure_eq_ok.mp h
          have hsending := hanswer hanswered
          exact hsending

theorem planExecutionContinuation_speaks {planned : Planned}
    (hsome : r.planExecutionContinuation = some planned) (h : planned = .ok plan) :
    Speaks P plan := by
  simp only [planExecutionContinuation] at hsome
  split at hsome
  · cases hsome
  · split at hsome
    · cases hsome
    · split at hsome
      · rw [← Option.some.inj hsome] at h
        cases h
      · split at hsome
        · rw [← Option.some.inj hsome] at h
          obtain ⟨drop, hdrop, h⟩ := bind_eq_ok.mp h
          cases pure_eq_ok.mp h
          have hsending : Speaks P _ := dropPlan_speaks hdrop
          exact hsending
        · split at hsome
          · rw [← Option.some.inj hsome] at h
            obtain ⟨proposal, hproposal, h⟩ := bind_eq_ok.mp h
            cases pure_eq_ok.mp h
            have hsending : Speaks P _ := planStepProposal_speaks hl hproposal
            exact hsending
          · cases hsome

/-! ### Ticks and dispatch -/

theorem planTick_speaks (h : r.planTick time = .ok plan) :
    Speaks P plan := by
  unfold planTick at h
  split at h
  · obtain ⟨candidate, -, h⟩ := bind_eq_ok.mp h
    cases pure_eq_ok.mp h
    exact .sendAll (hl.plain rfl)
  · split at h
    · split at h
      · cases h
      · exact enterViewChange_speaks hl h
    · split at h
      · rename_i planned hoffer
        simp only [redriveOffer] at hoffer
        split at hoffer
        · cases hoffer
        · split at hoffer
          · split at hoffer
            · rw [← Option.some.inj hoffer] at h
              exact planStartView_speaks hl h
            · cases hoffer
          · cases hoffer
      · split at h
        · rename_i planned hwin
          simp only [redriveWin] at hwin
          split at hwin
          · rename_i attempt _ hopen
            split at hwin
            · cases hwin
            · split at hwin
              · rw [← Option.some.inj hwin] at h
                exact carryOn_speaks hl (hl.collected attempt hopen) h
              · cases hwin
          · cases hwin
        · split at h
          · rename_i planned hfetch
            simp only [refetch] at hfetch
            split at hfetch
            · cases hfetch
            · rw [← Option.some.inj hfetch] at h
              obtain ⟨emitted, hemitted, h⟩ := bind_eq_ok.mp h
              cases pure_eq_ok.mp h
              have hsending : Speaks P _ := emitPlan_speaks hemitted fun _ => .single (hl.plain rfl)
              exact hsending
          · split at h
            · rename_i planned hforced
              exact planForcedContinuation_speaks hl hforced h
            · split at h
              · rename_i planned hexecution
                exact planExecutionContinuation_speaks hl hexecution h
              · exact emitPlan_speaks h fun _ => .nil

omit hl [Journal J] in
theorem planCheckpointed_speaks {through : Nat} (h : r.planCheckpointed through = .ok plan) :
    Speaks P plan := by
  simp only [planCheckpointed] at h
  split at h
  · cases h
  · split at h
    · exact emitPlan_speaks h fun _ => .nil
    · obtain ⟨candidate, -, h⟩ := bind_eq_ok.mp h
      cases pure_eq_ok.mp h
      exact .nil

omit hl in
theorem planApplied_speaks {slot : Nat} (h : r.planApplied slot = .ok plan) :
    Speaks P plan := by
  obtain ⟨expected, -, h⟩ := bind_eq_ok.mp h
  split at h
  · cases h
  · obtain ⟨applied, -, h⟩ := bind_eq_ok.mp h
    obtain ⟨candidate, -, h⟩ := bind_eq_ok.mp h
    cases pure_eq_ok.mp h
    exact .nil

theorem planBody_speaks {sender : Nat} {message : Message} (hmessage : message.Reports F)
    (h : r.planBody sender message time kind = .ok plan) :
    Speaks P plan := by
  unfold planBody at h
  have hwitness : ∀ {p : PlannedTransition}, Speaks P p →
      Speaks P (r.withJoinGossipWitness p sender) := by
    intro p hp
    unfold withJoinGossipWitness
    split
    · exact hp
    · exact hp
  cases hbody : message.body with
  | prepare => rw [hbody] at h; exact planPrepare_speaks hl h
  | prepareOk => rw [hbody] at h; exact planPrepareOk_speaks hl h
  | commit => rw [hbody] at h; exact planCommit_speaks hl h
  | startViewChange => rw [hbody] at h; exact planStartViewChange_speaks hl h
  | doViewChange retained accepted committed suffix evidence proof =>
    have hsuffix : F suffix accepted := hmessage hbody
    rw [hbody] at h
    cases evidence with
    | planned => exact planPlannedEvidence_speaks hl h
    | ordinary => exact planOrdinaryEvidence_speaks hl hsuffix h
  | startView => rw [hbody] at h; exact planStartView_speaks hl h
  | plannedViewChange => rw [hbody] at h; exact planPlannedViewChange_speaks hl h
  | getState => rw [hbody] at h; exact planGetState_speaks hl h
  | newState => rw [hbody] at h; exact planNewState_speaks hl h
  | reincarnation =>
    rw [hbody] at h
    obtain ⟨p, hp, h⟩ := bind_eq_ok.mp h
    cases pure_eq_ok.mp h
    exact hwitness (planReincarnation_speaks hl hp)
  | gossipRequest =>
    rw [hbody] at h
    obtain ⟨p, hp, h⟩ := bind_eq_ok.mp h
    cases pure_eq_ok.mp h
    exact hwitness (planGossipRequest_speaks hl hp)
  | fuse => rw [hbody] at h; exact planFuse_speaks hl h
  | fuseOk => rw [hbody] at h; exact planFuseOk_speaks hl h
  | commitBatch => rw [hbody] at h; exact dropPlan_speaks h

theorem planPeer_speaks {sender : Nat} {message : Message} (hmessage : message.Reports F)
    (h : r.planPeer sender message time kind = .ok plan) :
    Speaks P plan := by
  unfold planPeer at h
  split at h
  · exact dropPlan_speaks h
  · obtain ⟨p, hp, h⟩ := bind_eq_ok.mp h
    cases pure_eq_ok.mp h
    have hsending : Speaks P _ := planBody_speaks hl hmessage hp
    split
    · exact hsending
    · exact hsending

/-- **What a plan of a fresh input sends.** -/
theorem plan_speaks {input : TimedInput}
    (hmessage : ∀ sender message, input.event = .peer sender message → message.Reports F)
    (hfresh : ∀ revision result, input.event ≠ .stabilityConfirmation revision result)
    (h : r.plan input = .ok plan) : Speaks P plan := by
  unfold Replica.plan at h
  split at h
  · cases h
  · simp only at h
    split at h
    · cases h
    · split at h
      · rename_i revision result hevent
        exact absurd hevent (hfresh revision result)
      · exact planTick_speaks hl (refuseIfParked_ok h).2
      · exact planPropose_speaks hl (refuseIfParked_ok h).2
      · rename_i sender message hevent
        exact planPeer_speaks hl (hmessage sender message hevent) (refuseIfParked_ok h).2
      · exact planApplied_speaks (refuseIfParked_ok h).2
      · exact planAdminForceView_speaks hl (refuseIfParked_ok h).2
      · exact planCheckpointed_speaks (refuseIfParked_ok h).2
      · exact planReconfigure_speaks hl (refuseIfParked_ok h).2
      · exact planReincarnate_speaks hl (refuseIfParked_ok h).2
      · exact planSubmitPlan_speaks hl (refuseIfParked_ok h).2

end Licensed

end Replica

end UvrrCore
