import UvrrCore.Draft.Advance
import UvrrCore.Replica.Arrivals

/-!
# The drafts of view changes

A fence, a report and a selection move no frontier. A win and the install of an announced view
fold the range their history commits, through the suffix they install.
-/

namespace UvrrCore

/-- A suffix that passes the shape check is a run of entries up to the accepted frontier. The
check starts over behind the last slot of the slot space, which no log takes an entry at. -/
theorem shaped_of_suffixShapeOk {suffix : List LogEntry} {accepted : Nat}
    (h : suffixShapeOk suffix accepted = true)
    (hstorable : ∀ entry ∈ suffix, entry.slot + 1 < u64Bound) : Shaped suffix accepted := by
  have hgo : ∀ (rest : List LogEntry) (next : Nat),
      suffixShapeOk.go suffix accepted (some next) rest = true →
      (∀ entry ∈ rest, entry.slot + 1 < u64Bound) → ContiguousFrom next rest ∧
        ∀ last, suffix.getLast? = some last → last.slot = accepted := by
    intro rest
    induction rest with
    | nil =>
      intro next hgo _
      refine ⟨trivial, fun last hlast => ?_⟩
      unfold suffixShapeOk.go at hgo
      rw [hlast] at hgo
      simpa using hgo
    | cons entry rest ih =>
      intro next hgo hall
      unfold suffixShapeOk.go at hgo
      simp only [Bool.and_eq_true, beq_iff_eq] at hgo
      obtain ⟨hslot, hgo⟩ := hgo
      rw [Slot.next_eq_some.mpr ⟨hall entry List.mem_cons_self, rfl⟩] at hgo
      obtain ⟨hrun, hlast⟩ := ih _ hgo fun e hmem => hall e (List.mem_cons_of_mem _ hmem)
      exact ⟨⟨hslot, hslot ▸ hrun⟩, hlast⟩
  cases suffix with
  | nil => exact Or.inl rfl
  | cons first rest =>
    unfold suffixShapeOk suffixShapeOk.go at h
    simp only [Bool.and_eq_true, bne_iff_ne, ne_eq] at h
    obtain ⟨hpos, h⟩ := h
    rw [Slot.next_eq_some.mpr ⟨hstorable first List.mem_cons_self, rfl⟩] at h
    obtain ⟨hrun, hlast⟩ := hgo rest _ h fun e hmem =>
      hstorable e (List.mem_cons_of_mem _ hmem)
    have hwhole : ContiguousFrom first.slot (first :: rest) := ⟨rfl, hrun⟩
    obtain ⟨last, heq⟩ := Option.isSome_iff_exists.mp
      (show (first :: rest).getLast?.isSome from by simp)
    have hend := hwhole.getLast?_slot heq
    rw [hlast last heq] at hend
    refine Or.inr ⟨first.slot, ?_, hwhole, hend.symm⟩
    show 1 ≤ first.slot
    have : first.slot ≠ 0 := hpos
    omega

namespace Replica

variable {J : Type} [Journal J] {r : Replica J} {given : Given} {kind : InputKind} {time : Nat}
  {plan : PlannedTransition}

theorem keepAttempt_drafted {candidate : Progress} (hcandidate : r.Unmoved candidate)
    {attempt : ViewChangeVolatile} (hreports : attempt.Reported given.shape)
    {effects : List Effect} (hsilent : ∀ effect ∈ effects, effect.isApply = false) :
    r.Drafted given (r.keepAttempt candidate attempt effects kind) := by
  refine (hcandidate.drafted hsilent).withBookkeeping (fun kept hset => ?_) fun _ => nofun
  cases hset
  exact hreports

omit [Journal J] in
theorem le_attestedCommit (r : Replica J) (evidence : OrdMap Nat Evidence) :
    r.progress.committed ≤ r.attestedCommit evidence := by
  unfold attestedCommit
  generalize evidence.values.map Evidence.committed = reports
  generalize r.progress.committed = base
  induction reports generalizing base with
  | nil => exact Nat.le_refl _
  | cons report reports ih =>
    rw [List.foldl_cons]
    exact Nat.le_trans (Nat.le_max_left base report) (ih _)

omit [Journal J] in
theorem doViewChangeEffect_isApply {own : Evidence} {target : Ballot} {effect : Effect}
    (h : r.doViewChangeEffect own target = .ok effect) : effect.isApply = false := by
  unfold doViewChangeEffect at h
  split at h
  · cases h
  · obtain ⟨proof, -, h⟩ := bind_eq_ok.mp h
    cases pure_eq_ok.mp h
    rfl

/-- One more report of the shape. -/
theorem insert_reported {shape : List LogEntry → Nat → Prop} {attempt : ViewChangeVolatile}
    (h : attempt.Reported shape) {node : Nat} {report : Evidence}
    (hreport : shape report.suffix report.accepted) :
    ({ attempt with evidence := attempt.evidence.insert node report } :
      ViewChangeVolatile).Reported shape := by
  refine ⟨fun other found hfound => ?_, h.selected⟩
  rw [OrdMap.get?_insert] at hfound
  split at hfound
  · cases hfound
    exact hreport
  · exact h.evidence other found hfound

theorem recordOwnEvidence_drafts {config : Configuration}
    {attempt attempt' : ViewChangeVolatile} {effects effects' : List Effect}
    (h : r.recordOwnEvidence config attempt effects = .ok (attempt', effects'))
    (hown : given.shape r.ownEvidence.suffix r.ownEvidence.accepted)
    (hreports : attempt.Reported given.shape)
    (hsilent : ∀ effect ∈ effects, effect.isApply = false) :
    attempt'.Reported given.shape ∧ ∀ effect ∈ effects', effect.isApply = false := by
  unfold recordOwnEvidence at h
  split at h
  · cases h
    exact ⟨hreports, hsilent⟩
  · split at h
    · cases h
      exact ⟨hreports, hsilent⟩
    · simp only at h
      have hreports' : ({ attempt with
          evidence := attempt.evidence.insert r.own r.ownEvidence } :
            ViewChangeVolatile).Reported given.shape := insert_reported hreports hown
      split at h
      · cases h
        exact ⟨hreports', hsilent⟩
      · obtain ⟨report, hreport, h⟩ := bind_eq_ok.mp h
        cases pure_eq_ok.mp h
        refine ⟨hreports', fun effect hmem => ?_⟩
        rcases List.mem_append.mp hmem with hmem | hmem
        · exact hsilent effect hmem
        · rw [List.mem_singleton.mp hmem]
          exact doViewChangeEffect_isApply hreport

omit [Journal J] in
/-- The selection is one of the reports. -/
theorem selectOnQuorum_reported {shape : List LogEntry → Nat → Prop} {config : Configuration}
    {attempt : ViewChangeVolatile} (h : attempt.Reported shape) :
    (r.selectOnQuorum config attempt).Reported shape := by
  unfold selectOnQuorum
  split
  · exact h
  · split
    · exact ⟨h.evidence, fun node report hselected =>
        h.evidence node report (selectHistory_spec hselected).1⟩
    · exact h

/-! ### What a view is installed with -/

/-- **The history an attempt is won with**: the one selected of a quorum's reports, once the
replica's own is among them, at the primary of the target. -/
def WinsWith (r : Replica J) (attempt : ViewChangeVolatile) (report : Evidence) : Prop :=
  ∃ record recorded effects effects' reporter,
    r.progress.config.record attempt.target.era = some record ∧
    r.recordOwnEvidence record.config attempt effects = .ok (recorded, effects') ∧
    r.primaryOf attempt.target = some r.own ∧ (recorded.evidence.get? r.own).isSome ∧
    (r.selectOnQuorum record.config recorded).selected = some (reporter, report) ∧
    r.attestedCommit recorded.evidence ≤ report.accepted

/-- What an attempt is won with is as given, when it is shorter than the local history. -/
def FitWin (r : Replica J) (given : Given) (attempt : ViewChangeVolatile) : Prop :=
  ∀ report, r.WinsWith attempt report → report.accepted < r.progress.accepted →
    given.shorter report.suffix report.accepted

/-- The open attempt, as an input carries it on. -/
inductive Carries (r : Replica J) : Input → ViewChangeVolatile → Prop
  | ticked {attempt : ViewChangeVolatile} (hopen : r.viewChange = some attempt) :
      Carries r .tick attempt
  | fenced {attempt : ViewChangeVolatile} {sender : Nat} {message : Message}
      (hopen : r.viewChange = some attempt) (hview : message.header.view = attempt.target)
      (hbody : message.body = .startViewChange) :
      Carries r (.peer sender message)
        { attempt with fences := attempt.fences.insert sender () }
  | reported {attempt : ViewChangeVolatile} {sender : Nat} {message : Message}
      {evidence : Evidence} {proof : EraProof} (hopen : r.viewChange = some attempt)
      (hview : message.header.view = attempt.target)
      (hbody : message.body = .doViewChange evidence.retained evidence.accepted
        evidence.committed evidence.suffix .ordinary proof)
      (hshape : suffixShapeOk evidence.suffix evidence.accepted = true) :
      Carries r (.peer sender message)
        { attempt with evidence := collectEvidence attempt.evidence sender evidence }

/-- **The replica installs an announced view** once it can check the history: the view is a later
one, or the one the replica is fenced in, and what it commits reaches the local frontier. -/
structure TakesView (r : Replica J) (sender : Nat) (message : Message) (suffix : List LogEntry)
    (accepted committed : Nat) : Prop where
  body : ∃ proof record, message.body = .startView suffix accepted committed proof ∧
    r.progress.config.record message.header.view.era = some record ∧
    eraProofOk record proof = true
  primary : r.primaryOf message.header.view = some sender
  shaped : suffixShapeOk suffix accepted = true
  within : message.header.slot = accepted ∧ committed ≤ accepted
  later : r.progress.current < message.header.view ∨
    (message.header.view = r.progress.current ∧ r.progress.status = .viewChange)
  reaches : r.progress.committed ≤ committed

/-- An announcement is judged when it arrives, and again on a tick once its history checks. -/
def Judges (r : Replica J) (event : Input) (sender : Nat) (message : Message)
    (suffix : List LogEntry) (accepted committed : Nat) : Prop :=
  event = .peer sender message ∨
    (event = .tick ∧
      (∃ offer, r.stalled = some offer ∧ offer.sender = sender ∧ offer.message = message) ∧
      (r.checkSuffix suffix accepted committed Slot.none).installs = true)

/-- A history shorter than the local one that the input may install a view with is as given. -/
structure FitViews (r : Replica J) (given : Given) (event : Input) : Prop where
  wins : ∀ attempt, r.Carries event attempt → r.FitWin given attempt
  announced : ∀ sender message suffix accepted committed,
    r.Judges event sender message suffix accepted committed →
    r.TakesView sender message suffix accepted committed → accepted < r.progress.accepted →
      given.shorter suffix accepted

/-- **A win.** The selected history's suffix is the overlay of the fold. -/
theorem planWinView_drafted {target : Ballot} {selected : Evidence}
    {evidence : OrdMap Nat Evidence} {effects : List Effect}
    (hshape : given.shape selected.suffix selected.accepted)
    (hshorter : r.attestedCommit evidence ≤ selected.accepted →
      selected.accepted < r.progress.accepted → given.shorter selected.suffix selected.accepted)
    (hsilent : ∀ effect ∈ effects, effect.isApply = false)
    (h : r.planWinView target selected evidence effects time kind = .ok (.installed plan)) :
    r.Drafted given plan := by
  simp only [planWinView] at h
  split at h
  · cases h
  · split at h
    · cases h
    · obtain ⟨breach, hbreach, h⟩ := bind_eq_ok.mp h
      cases pure_eq_ok.mp h
      exact breachPlan_drafted hbreach
    · rename_i mutation hcheck
      obtain ⟨applied, hwalk, h⟩ := bind_eq_ok.mp h
      split at h
      · cases h
      · obtain ⟨drop, hdrop, h⟩ := bind_eq_ok.mp h
        cases pure_eq_ok.mp h
        exact dropPlan_drafted hdrop
      · obtain ⟨breach, hbreach, h⟩ := bind_eq_ok.mp h
        cases pure_eq_ok.mp h
        exact breachPlan_drafted hbreach
      · rename_i folded hfold
        obtain ⟨candidate, hcandidate, h⟩ := bind_eq_ok.mp h
        obtain ⟨applies, happlies, h⟩ := bind_eq_ok.mp h
        obtain ⟨announcements, hannounce, h⟩ := bind_eq_ok.mp h
        cases pure_eq_ok.mp h
        have hcovered := (foldCommitted_covered hfold).2.2 (le_attestedCommit r evidence) rfl
        have hdata := installCandidate_ok hcandidate
        obtain ⟨proof, -, hannounce⟩ := bind_eq_ok.mp hannounce
        cases pure_eq_ok.mp hannounce
        refine Drafted.withBookkeeping ?_ (fun attempt hset => by cases hset)
          fun _ hset => by cases hset
        refine drafted_commit selected.suffix hfold
          (by rw [hdata, hcovered]; rfl) (by rw [hdata, hcovered]; exact hwalk)
          (.inl (by rw [hdata]; rfl)) (.inl rfl)
          (by rw [hcovered]; exact happlies) ?_ (by rw [hdata]; intro hstatus; cases hstatus) ?_
        · rw [List.filter_append, List.filter_append, filter_silent hsilent,
            filter_applyRange happlies, filter_silent (sendAll_isApply _ _ _), List.nil_append,
            List.append_nil]
        · rw [show candidate.accepted = selected.accepted from by rw [hdata]; rfl]
          exact .spliced hshape hcheck (Nat.le_refl _) (hshorter (by omega))

omit [Journal J] in
theorem selectOnQuorum_evidence (config : Configuration) (attempt : ViewChangeVolatile) :
    (r.selectOnQuorum config attempt).evidence = attempt.evidence := by
  unfold selectOnQuorum
  split
  · rfl
  · split <;> rfl

theorem continueViewChange_drafted {candidate : Progress} (hcandidate : r.Unmoved candidate)
    {attempt : ViewChangeVolatile} {effects : List Effect}
    (hown : given.shape r.ownEvidence.suffix r.ownEvidence.accepted)
    (hreports : attempt.Reported given.shape) (hwin : r.FitWin given attempt)
    (hsilent : ∀ effect ∈ effects, effect.isApply = false)
    (h : r.continueViewChange candidate attempt effects time kind = .ok plan) :
    r.Drafted given plan := by
  simp only [continueViewChange] at h
  split at h
  · exact dropPlan_drafted h
  · rename_i record hrecord
    obtain ⟨⟨attempt', effects'⟩, hrecorded, h⟩ := bind_eq_ok.mp h
    obtain ⟨hreports', hsilent'⟩ := recordOwnEvidence_drafts hrecorded hown hreports hsilent
    split at h
    · rename_i hprimary
      have hselecting : (r.selectOnQuorum record.config attempt').Reported given.shape :=
        selectOnQuorum_reported hreports'
      split at h
      · cases pure_eq_ok.mp h
        exact keepAttempt_drafted hcandidate hselecting hsilent'
      · rename_i reporter selected hselected
        obtain ⟨outcome, houtcome, h⟩ := bind_eq_ok.mp h
        split at h
        · cases pure_eq_ok.mp h
          refine planWinView_drafted (hselecting.selected _ _ hselected) (fun hattested hshorter => ?_)
            hsilent' houtcome
          rw [selectOnQuorum_evidence] at hattested
          exact hwin selected ⟨record, attempt', effects, effects', reporter, hrecord, hrecorded,
            hprimary.1, hprimary.2, hselected, hattested⟩ hshorter
        · cases planWinView_insufficient houtcome
          split at h
          · cases pure_eq_ok.mp h
            exact ((keepAttempt_drafted hcandidate hselecting hsilent').withDiagnostic _).withFetch
              _ _ _
          · cases pure_eq_ok.mp h
            exact (keepAttempt_drafted hcandidate hselecting hsilent').withDiagnostic _
    · cases pure_eq_ok.mp h
      exact keepAttempt_drafted hcandidate hreports' hsilent'

/-- Nothing but the replica's own history wins an attempt that has heard no report. -/
theorem WinsWith.own {attempt : ViewChangeVolatile} {report : Evidence}
    (h : r.WinsWith attempt report) (hevidence : attempt.evidence = OrdMap.empty)
    (hselected : attempt.selected = none) : report = r.ownEvidence := by
  obtain ⟨record, recorded, effects, effects', reporter, -, hrecorded, hprimary, hown, hselect, -⟩ := h
  have hrecorded' : recorded = attempt ∨
      recorded = { attempt with evidence := attempt.evidence.insert r.own r.ownEvidence } := by
    unfold recordOwnEvidence at hrecorded
    split at hrecorded
    · cases hrecorded
      exact .inl rfl
    · split at hrecorded
      · cases hrecorded
        exact .inl rfl
      · simp only [if_pos hprimary] at hrecorded
        cases hrecorded
        exact .inr rfl
  rcases hrecorded' with rfl | rfl
  · rw [hevidence] at hown
    cases hown
  · unfold selectOnQuorum at hselect
    simp only [hselected, Option.isSome_none, Bool.false_eq_true, if_false] at hselect
    split at hselect
    · have hget := (selectHistory_spec hselect).1
      rw [hevidence, OrdMap.get?_insert] at hget
      split at hget
      · exact (Option.some.inj hget).symm
      · cases hget
    · cases hselect

variable (hgiven : r.Reported given.shape)

include hgiven

theorem enterViewChange_drafted {target : Ballot} {heard : OrdMap Nat Unit}
    (h : r.enterViewChange target heard time kind = .ok plan) : r.Drafted given plan := by
  obtain ⟨candidate, hcandidate, h⟩ := bind_eq_ok.mp h
  refine continueViewChange_drafted (withViewChange_unmoved (asCandidate_eq_ok.mp hcandidate))
    hgiven.own ⟨fun node report hget => ?_, fun _ _ hnone => ?_⟩ (fun report hwin hshorter => ?_)
    (sendAll_isApply _ _ _) h
  · cases hget
  · cases hnone
  · rw [hwin.own rfl rfl] at hshorter
    exact absurd hshorter (Nat.lt_irrefl _)

theorem planAdminForceView_drafted {target : Ballot}
    (h : r.planAdminForceView target time = .ok plan) : r.Drafted given plan := by
  simp only [planAdminForceView] at h
  split at h
  · cases h
  · split at h
    · cases h
    · split at h
      · cases h
      · exact enterViewChange_drafted hgiven h

theorem planStartViewChange_drafted {sender : Nat} {message : Message}
    (hbody : message.body = .startViewChange)
    (hwins : ∀ attempt, r.Carries (.peer sender message) attempt → r.FitWin given attempt)
    (h : r.planStartViewChange sender message time kind = .ok plan) : r.Drafted given plan := by
  simp only [planStartViewChange] at h
  split at h
  · exact dropPlan_drafted h
  · split at h
    · exact dropPlan_drafted h
    · split at h
      · split at h
        · exact dropPlan_drafted h
        · exact enterViewChange_drafted hgiven h
      · rename_i attempt hopen
        split at h
        · exact dropPlan_drafted h
        · rename_i hbehind
          split at h
          · exact enterViewChange_drafted hgiven h
          · rename_i hahead
            obtain ⟨candidate, hcandidate, h⟩ := bind_eq_ok.mp h
            have hkept := hgiven.attempt attempt hopen
            have hview := le_antisymm (not_lt.mp hahead) (not_lt.mp hbehind)
            refine continueViewChange_drafted (identityCandidate_ok hcandidate).unmoved hgiven.own
              ?_ (hwins _ (.fenced hopen hview hbody)) (fun _ hmem => by cases hmem) h
            exact ⟨hkept.evidence, hkept.selected⟩

theorem planOrdinaryEvidence_drafted {sender : Nat} {message : Message} {evidence : Evidence}
    {proof : EraProof}
    (hshape : suffixShapeOk evidence.suffix evidence.accepted = true →
      given.shape evidence.suffix evidence.accepted)
    (hbody : message.body = .doViewChange evidence.retained evidence.accepted evidence.committed
      evidence.suffix .ordinary proof)
    (hwins : ∀ attempt, r.Carries (.peer sender message) attempt → r.FitWin given attempt)
    (h : r.planOrdinaryEvidence sender message evidence proof time kind = .ok plan) :
    r.Drafted given plan := by
  simp only [planOrdinaryEvidence] at h
  split at h
  · exact dropPlan_drafted h
  · split at h
    · exact dropPlan_drafted h
    · split at h
      · exact dropPlan_drafted h
      · rename_i hformed
        split at h
        · exact dropPlan_drafted h
        · rename_i attempt hopen
          split at h
          · exact dropPlan_drafted h
          · rename_i hbehind
            split at h
            · exact dropPlan_drafted h
            · rename_i hcollects
              obtain ⟨candidate, hcandidate, h⟩ := bind_eq_ok.mp h
              simp only [not_or, Bool.not_eq_false] at hformed
              rw [not_or] at hcollects
              have hview := le_antisymm (not_lt.mp hcollects.1) (not_lt.mp hbehind)
              refine continueViewChange_drafted (identityCandidate_ok hcandidate).unmoved hgiven.own
                ?_ (hwins _ (.reported hopen hview hbody hformed.2.2.1))
                (fun _ hmem => by cases hmem) h
              have hkept := hgiven.attempt attempt hopen
              unfold collectEvidence
              split
              · exact ⟨hkept.evidence, hkept.selected⟩
              · exact insert_reported hkept (hshape hformed.2.2.1)

omit hgiven

/-- **The install of an announced view.** -/
theorem planStartView_drafted {sender : Nat} {message : Message} {suffix : List LogEntry}
    {accepted committed : Nat} {proof : EraProof} (hmessage : given.kept message)
    (hshape : suffixShapeOk suffix accepted = true → given.shape suffix accepted)
    (hbody : message.body = .startView suffix accepted committed proof)
    (hshorter : r.TakesView sender message suffix accepted committed →
      accepted < r.progress.accepted → given.shorter suffix accepted)
    (h : r.planStartView sender message suffix accepted committed proof time kind = .ok plan) :
    r.Drafted given plan := by
  cases planStartView_cases h with
  | unevaluable _ hoffer =>
    obtain ⟨drop, hdrop, rfl | rfl | ⟨next, rfl⟩⟩ := planUnevaluableOffer_ok hoffer
    · exact dropPlan_drafted hdrop
    · exact (dropPlan_drafted hdrop).withStalledOffer _ hmessage
    · exact ((dropPlan_drafted hdrop).withStalledOffer _ hmessage).withFetch _ _ _
  | dropped _ hdrop => exact dropPlan_drafted hdrop
  | breached hbreach => exact breachPlan_drafted hbreach
  | gap expected got drop hdrop hplan =>
    subst hplan
    exact ((dropPlan_drafted hdrop).withFetch _ _ _).withStalledOffer _ hmessage
  | installed record hrecord hprimary hformed hadopts hahead mutation hcheck applied hwalk folded
      hfold candidate hcandidate effects happlies hplan =>
    subst hplan
    have hcovered := (foldCommitted_covered hfold).2.2 (by omega) rfl
    have hdata := installCandidate_ok hcandidate
    refine Drafted.withBookkeeping ?_ (fun attempt hset => by cases hset) fun _ => nofun
    refine drafted_commit suffix hfold (by rw [hdata, hcovered]; rfl)
      (by rw [hdata, hcovered]; exact hwalk) (.inl (by rw [hdata]; rfl)) (.inl rfl)
      (by rw [hcovered]; exact happlies) (filter_applyRange happlies)
      (by rw [hdata]; intro hstatus; cases hstatus) ?_
    rw [show candidate.accepted = accepted from by rw [hdata]; rfl]
    simp only [not_or, Bool.not_eq_false] at hformed
    have htakes : r.TakesView sender message suffix accepted committed :=
      ⟨⟨proof, record, hbody, hrecord, hformed.2.2.2⟩, hprimary, hformed.2.2.1,
        ⟨not_not.mp hformed.1, by omega⟩, hadopts, by omega⟩
    exact .spliced (hshape hformed.2.2.1) hcheck (Nat.le_refl _) (hshorter htakes)

end Replica

end UvrrCore
