import UvrrCore.Deferred.Simulation
import UvrrCore.Released

/-!
# The retained offer on a tick

A replica that could not install an announced view keeps the offer, and a tick gives it to the
handler again. The tick asks first whether the offer may be adopted, and so does the handler: two
copies of one rule. The tick's lets the view a boot-fenced node is in pass, the handler's does not.

* `planStartView_stale_iff`: what the handler drops as stale.
* `redriven_adopted_iff`: where a retained offer is not dropped as stale on a tick.
-/

namespace UvrrCore

/-- The plan drops its input as an announcement of a view that is over. -/
def DropsStale (planned : Planned) : Prop :=
  ∃ plan got current, planned = .ok plan ∧ plan.diagnostic = .startViewFromStaleView got current

namespace Replica

variable {J : Type} [Journal J] {r : Replica J}

/-- **The tick gives the retained offer to its handler**: it has no promotion and no suspicion to
act on, and its own tests of the offer pass. -/
structure Redrives (r : Replica J) (time : Nat) (offer : StalledStartView) : Prop where
  serving : r.progress.fault = none
  unpromoted : r.promotable = false
  unsuspecting : r.suspects time = false
  retained : r.stalled = some offer
  driven : (r.redriveOffer time).isSome

/-- The handler's guards ahead of its test of the view let the announcement through. -/
structure Vets (r : Replica J) (sender : Nat) (message : Message) (suffix : List LogEntry)
    (accepted committed : Nat) (proof : EraProof) : Prop where
  known : ∃ record, r.progress.config.record message.header.view.era = some record ∧
    eraProofOk record proof = true
  primary : r.primaryOf message.header.view = some sender
  slot : message.header.slot = accepted
  covered : committed ≤ accepted
  shaped : suffixShapeOk suffix accepted = true

/-- The guards let the retained offer through. -/
def VetsOffer (r : Replica J) (offer : StalledStartView) : Prop :=
  ∃ suffix accepted committed proof,
    offer.message.body = .startView suffix accepted committed proof ∧
    r.Vets offer.sender offer.message suffix accepted committed proof

/-- The handler's own test of the view. -/
def Enters (r : Replica J) (view : Ballot) : Prop :=
  r.progress.current < view ∨ (view = r.progress.current ∧ r.progress.status = .viewChange)

/-! ### What is no stale drop -/

omit [Journal J] in
theorem dropPlan_stale_iff {diagnostic : Diagnostic} {kind : InputKind} :
    DropsStale (r.dropPlan diagnostic kind) ↔
      (∃ got current, diagnostic = .startViewFromStaleView got current) ∧
        ∃ candidate, r.identityCandidate = .ok candidate := by
  constructor
  · rintro ⟨plan, got, current, hplan, hdiagnostic⟩
    obtain ⟨emitted, hemitted, hplan⟩ := bind_eq_ok.mp hplan
    obtain ⟨candidate, hcandidate, -⟩ := bind_eq_ok.mp hemitted
    cases pure_eq_ok.mp hplan
    exact ⟨⟨got, current, hdiagnostic⟩, candidate, hcandidate⟩
  · rintro ⟨⟨got, current, rfl⟩, candidate, hcandidate⟩
    unfold dropPlan emitPlan
    rw [hcandidate]
    exact ⟨_, got, current, rfl, rfl⟩

omit [Journal J] in
theorem not_stale_of_dropPlan {diagnostic : Diagnostic} {kind : InputKind}
    (h : ∀ got current, diagnostic ≠ .startViewFromStaleView got current) :
    ¬ DropsStale (r.dropPlan diagnostic kind) := by
  rw [dropPlan_stale_iff]
  rintro ⟨⟨got, current, heq⟩, -⟩
  exact h got current heq

/-- A plan without a diagnostic drops nothing. -/
theorem not_stale_of_none {planned : Planned}
    (h : ∀ plan, planned = .ok plan → plan.diagnostic = .none) : ¬ DropsStale planned := by
  rintro ⟨plan, got, current, hplan, hdiagnostic⟩
  rw [h plan hplan] at hdiagnostic
  cases hdiagnostic

omit [Journal J] in
theorem not_stale_of_breachPlan {kind : InputKind} : ¬ DropsStale (r.breachPlan kind) := by
  refine not_stale_of_none fun plan hplan => ?_
  obtain ⟨candidate, -, rfl⟩ := breachPlan_ok hplan
  rfl

omit [Journal J] in
theorem not_stale_of_unevaluable {sender : Nat} {message : Message} {proof : EraProof}
    {kind : InputKind} : ¬ DropsStale (r.planUnevaluableOffer sender message proof kind) := by
  rintro ⟨plan, got, current, hplan, hdiagnostic⟩
  obtain ⟨drop, hdrop, hcases⟩ := planUnevaluableOffer_ok hplan
  obtain ⟨candidate, -, rfl⟩ := dropPlan_ok hdrop
  rcases hcases with rfl | rfl | ⟨fetch, rfl⟩
  · cases hdiagnostic
  · cases hdiagnostic
  · cases hdiagnostic

/-- An offer that passes the test of the view is not dropped as stale. -/
theorem not_stale_of_enters {sender : Nat} {message : Message} {suffix : List LogEntry}
    {accepted committed : Nat} {proof : EraProof} {time : Nat} {kind : InputKind}
    (h : r.Enters message.header.view) :
    ¬ DropsStale (r.planStartView sender message suffix accepted committed proof time kind) := by
  unfold Enters at h
  unfold planStartView
  dsimp only
  split
  · exact not_stale_of_unevaluable
  · split
    · exact not_stale_of_dropPlan fun got current => nofun
    · split
      · exact not_stale_of_dropPlan fun got current => nofun
      · split
        · exact not_stale_of_dropPlan fun got current => nofun
        · split
          · -- a gap keeps the offer
            rintro ⟨plan, got, current, hplan, hdiagnostic⟩
            obtain ⟨drop, hdrop, hplan⟩ := bind_eq_ok.mp hplan
            obtain ⟨candidate, -, rfl⟩ := dropPlan_ok hdrop
            cases pure_eq_ok.mp hplan
            cases hdiagnostic
          · exact not_stale_of_breachPlan
          · rintro ⟨plan, got, current, hplan, hdiagnostic⟩
            obtain ⟨applied, -, hplan⟩ := bind_eq_ok.mp hplan
            split at hplan
            · cases hplan
            · have hfuse : ¬ DropsStale (r.dropPlan .fuseRefusal kind) :=
                not_stale_of_dropPlan fun got current => nofun
              exact hfuse ⟨plan, got, current, hplan, hdiagnostic⟩
            · exact not_stale_of_breachPlan ⟨plan, got, current, hplan, hdiagnostic⟩
            · obtain ⟨candidate, -, hplan⟩ := bind_eq_ok.mp hplan
              obtain ⟨effects, -, hplan⟩ := bind_eq_ok.mp hplan
              cases pure_eq_ok.mp hplan
              cases hdiagnostic

/-- What is dropped as stale has passed the guards. -/
theorem vets_of_stale {sender : Nat} {message : Message} {suffix : List LogEntry}
    {accepted committed : Nat} {proof : EraProof} {time : Nat} {kind : InputKind}
    (h : DropsStale (r.planStartView sender message suffix accepted committed proof time kind)) :
    r.Vets sender message suffix accepted committed proof := by
  unfold planStartView at h
  dsimp only at h
  split at h
  · exact absurd h not_stale_of_unevaluable
  · rename_i record hrecord
    split at h
    · exact absurd h (not_stale_of_dropPlan fun got current => nofun)
    · rename_i hprimary
      split at h
      · exact absurd h (not_stale_of_dropPlan fun got current => nofun)
      · rename_i hformed
        simp only [not_or, not_not, Nat.not_lt, Bool.not_eq_false] at hprimary hformed
        obtain ⟨hslot, hcovered, hshaped, hproof⟩ := hformed
        exact ⟨⟨record, hrecord, hproof⟩, hprimary, hslot, hcovered, hshaped⟩

/-- The drop of what passes the guards and not the test of the view. -/
theorem planStartView_stale {sender : Nat} {message : Message} {suffix : List LogEntry}
    {accepted committed : Nat} {proof : EraProof} {time : Nat} {kind : InputKind}
    (hvets : r.Vets sender message suffix accepted committed proof)
    (hnot : ¬ r.Enters message.header.view) :
    r.planStartView sender message suffix accepted committed proof time kind =
      r.dropPlan (.startViewFromStaleView message.header.view r.progress.current) kind := by
  obtain ⟨⟨record, hrecord, hproof⟩, hprimary, hslot, hcovered, hshaped⟩ := hvets
  have hformed : ¬ (message.header.slot ≠ accepted ∨ accepted < committed ∨
      suffixShapeOk suffix accepted = false ∨ eraProofOk record proof = false) := by
    simp [hslot, hcovered, hshaped, hproof]
  unfold Enters at hnot
  unfold planStartView
  dsimp only
  rw [hrecord]
  dsimp only
  rw [if_neg (not_not.mpr hprimary), if_neg hformed, if_pos hnot]

/-- **What the handler drops as stale**: what its guards let through and its test of the view does
not. -/
theorem planStartView_stale_iff {sender : Nat} {message : Message} {suffix : List LogEntry}
    {accepted committed : Nat} {proof : EraProof} {time : Nat} {kind : InputKind} :
    DropsStale (r.planStartView sender message suffix accepted committed proof time kind) ↔
      r.Vets sender message suffix accepted committed proof ∧ ¬ r.Enters message.header.view ∧
        ∃ candidate, r.identityCandidate = .ok candidate := by
  constructor
  · intro h
    have hvets := vets_of_stale h
    have hnot : ¬ r.Enters message.header.view := fun henters => not_stale_of_enters henters h
    rw [planStartView_stale hvets hnot, dropPlan_stale_iff] at h
    exact ⟨hvets, hnot, h.2⟩
  · rintro ⟨hvets, hnot, hcandidate⟩
    rw [planStartView_stale hvets hnot, dropPlan_stale_iff]
    exact ⟨⟨_, _, rfl⟩, hcandidate⟩

/-! ### The tick -/

/-- What the tick asks of an offer, and what it then plans. -/
theorem redriveOffer_eq_some {time : Nat} {planned : Planned}
    (h : r.redriveOffer time = some planned) :
    ∃ offer suffix accepted committed proof, r.stalled = some offer ∧
      offer.message.body = .startView suffix accepted committed proof ∧
      (r.Enters offer.message.header.view ∨
        (offer.message.header.view = r.progress.current ∧ r.bootFenced = true)) ∧
      planned = r.planStartView offer.sender offer.message suffix accepted committed proof time
        (.peerMessage .startView offer.message.header.slot) := by
  unfold redriveOffer at h
  split at h
  · cases h
  · rename_i offer hoffer
    dsimp only at h
    split at h
    · rename_i suffix accepted committed proof hbody
      split at h
      · rename_i hpasses
        refine ⟨offer, suffix, accepted, committed, proof, hoffer, hbody, ?_,
          (Option.some.inj h).symm⟩
        rcases hpasses.1 with hlater | ⟨heq, hstatus | hfenced⟩
        · exact .inl (.inl hlater)
        · exact .inl (.inr ⟨heq, hstatus⟩)
        · exact .inr ⟨heq, hfenced⟩
      · cases h
    · cases h

omit [Journal J] in
/-- A boot-fenced node does not adopt the view it is in. -/
theorem not_enters_of_fenced {view : Ballot} (hview : view = r.progress.current)
    (hfenced : r.bootFenced = true) : ¬ r.Enters view := by
  rintro (hlater | ⟨-, hstatus⟩)
  · rw [hview] at hlater
    exact lt_irrefl _ hlater
  · exact (isBoot_ne (bootFenced_isBoot hfenced)).2 hstatus

/-- **Where a retained offer is not dropped as stale on a tick**: everywhere but at a boot-fenced
node that is in the offered view already, and has a revision left to plan the drop. -/
theorem redriven_adopted_iff {time : Nat} {offer : StalledStartView}
    (h : r.Redrives time offer) :
    ¬ DropsStale (r.planTick time) ↔
      ¬ (offer.message.header.view = r.progress.current ∧ r.bootFenced = true ∧
        r.VetsOffer offer ∧ r.progress.revision + 1 < u64Bound) := by
  obtain ⟨planned, hdriven⟩ := Option.isSome_iff_exists.mp h.driven
  obtain ⟨offer', suffix, accepted, committed, proof, hretained, hbody, hpasses, rfl⟩ :=
    redriveOffer_eq_some hdriven
  cases h.retained.symm.trans hretained
  have htick : r.planTick time = r.planStartView offer.sender offer.message suffix accepted
      committed proof time (.peerMessage .startView offer.message.header.slot) := by
    unfold planTick
    rw [h.unpromoted, h.unsuspecting, hdriven]
    rfl
  have hroom : (∃ candidate, r.identityCandidate = .ok candidate) ↔
      r.progress.revision + 1 < u64Bound := by
    refine ⟨fun ⟨candidate, hcandidate⟩ => ?_, identityCandidate_isOk h.serving⟩
    unfold identityCandidate Progress.withStatus at hcandidate
    exact (Progress.transition_data (asCandidate_eq_ok.mp hcandidate)).2.1
  rw [htick, planStartView_stale_iff, hroom, not_iff_not]
  constructor
  · rintro ⟨hvets, hnot, hrevision⟩
    obtain ⟨hview, hfenced⟩ := hpasses.resolve_left hnot
    exact ⟨hview, hfenced, ⟨_, _, _, _, hbody, hvets⟩, hrevision⟩
  · rintro ⟨hview, hfenced, ⟨_, _, _, _, hbody', hvets⟩, hrevision⟩
    cases hbody.symm.trans hbody'
    exact ⟨hvets, not_enters_of_fenced hview hfenced, hrevision⟩

/-! ### A learner behind an announcement -/

/-- Node 2 announces view 1 of the second era, with a history beyond the genesis. -/
def announcedSecond (history : List LogEntry) : TimedInput where
  time := 1
  event := .peer 2
    { header := { view := ⟨2, 1⟩, slot := 2 + history.length }
      body := .startView history (2 + history.length) (2 + history.length) ⟨.double, 3⟩ }

/-- Node 2 answers the fetch of what was missing. -/
def fetchedSecond (history : List LogEntry) : TimedInput where
  time := 2
  event := .peer 2
    { header := { view := ⟨1, 0⟩, slot := 2 + history.length }
      body := .newState history (2 + history.length) (2 + history.length) false }

/-- A backup of the fresh cluster that keeps the offer and has taken the answer. -/
def caughtThird (history : List LogEntry) : Option (Replica SegmentedLog) :=
  freshThird.map fun fresh =>
    ((fresh.step (announcedSecond history)).1.step (fetchedSecond history)).1

theorem caughtThird_reached {history : List LogEntry} {r : Replica SegmentedLog}
    (h : caughtThird history = some r) : r.Reached := by
  obtain ⟨fresh, hfresh, rfl⟩ := Option.map_eq_some_iff.mp h
  exact ((Reached.provision (toOption_eq_some hfresh)).step _).step _

/-- What a tick asks before it gives the offer back, all at once. -/
def redrives (r : Replica SegmentedLog) (time : Nat) : Bool :=
  r.progress.fault.isNone && !r.promotable && !r.suspects time && (r.redriveOffer time).isSome

theorem redrives_of {r : Replica SegmentedLog} {time : Nat} {offer : StalledStartView}
    (hoffer : r.stalled = some offer) (h : r.redrives time = true) : r.Redrives time offer := by
  simp only [redrives, Bool.and_eq_true, Option.isNone_iff_eq_none, Bool.not_eq_true'] at h
  obtain ⟨⟨⟨hfault, hpromotable⟩, hsuspects⟩, hdriven⟩ := h
  exact ⟨hfault, hpromotable, hsuspects, hoffer, hdriven⟩

/-- The answer reaches into the second era and the backup stays in its view: it adopts the offered
one. -/
theorem redriven_adopted_behind : ∃ (r : Replica SegmentedLog) (offer : StalledStartView),
    r.Reached ∧ r.stalled = some offer ∧ ¬ DropsStale (r.planTick 3) := by
  have hcaught : (caughtThird [⟨3, 1, .system .double⟩]).map (fun r =>
      (r.redrives 3, r.progress.current, r.stalled.map fun offer => offer.message.header.view)) =
        some (true, ⟨1, 0⟩, some ⟨2, 1⟩) := by decide +kernel
  obtain ⟨r, hr, hcaught⟩ := Option.map_eq_some_iff.mp hcaught
  simp only [Prod.mk.injEq] at hcaught
  obtain ⟨hredrives, hcurrent, hview⟩ := hcaught
  obtain ⟨offer, hoffer, hview⟩ := Option.map_eq_some_iff.mp hview
  refine ⟨r, offer, caughtThird_reached hr, hoffer,
    (redriven_adopted_iff (redrives_of hoffer hredrives)).mpr ?_⟩
  rintro ⟨heq, -⟩
  rw [hview, hcurrent] at heq
  cases heq

/-- **A backup that caught up is left with the offer**: the answer reaches into the third era, so
the fold stops and walks the backup into the very view that is on offer. -/
theorem redriven_dropped_walked : ¬ ∀ (r : Replica SegmentedLog) (time : Nat)
    (offer : StalledStartView), r.Reached → r.Redrives time offer →
      ¬ DropsStale (r.planTick time) := by
  intro hall
  have hcaught : (caughtThird [⟨3, 1, .system .double⟩, ⟨4, 2, .system .halve⟩]).map (fun r =>
      (r.redrives 3, r.stalled.isSome,
        (r.planTick 3).toOption.map PlannedTransition.diagnostic)) =
      some (true, true, some (.startViewFromStaleView ⟨2, 1⟩ ⟨2, 1⟩)) := by decide +kernel
  obtain ⟨r, hr, hcaught⟩ := Option.map_eq_some_iff.mp hcaught
  simp only [Prod.mk.injEq] at hcaught
  obtain ⟨hredrives, hoffered, hdrop⟩ := hcaught
  obtain ⟨offer, hoffer⟩ := Option.isSome_iff_exists.mp hoffered
  obtain ⟨plan, hplan, hdiagnostic⟩ := Option.map_eq_some_iff.mp hdrop
  exact hall r 3 offer (caughtThird_reached hr) (redrives_of hoffer hredrives)
    ⟨plan, _, _, toOption_eq_some hplan, hdiagnostic⟩

end Replica

end UvrrCore
