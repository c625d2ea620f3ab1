import UvrrCore.OneEra.Serving
import UvrrCore.Replica.Arrivals
import UvrrCore.Selection

/-!
# View changes in the first era

A fence, a report, a win and the install of an announced view are steps of their nodes. The win
takes the best of a quorum's reports (`selectHistory_spec`) and the install what the ballot opened
with, as long as the entries a suffix leaves uncompared are the sender's (`GapAgrees`).
-/

namespace UvrrCore

open Viewstamped

/-! ### What a suffix leaves uncompared -/

/-- **The gap below a suffix agrees**: above its committed frontier the replica holds what the
sender held, at every slot the suffix begins behind. -/
def GapAgrees (r origin : Replica SegmentedLog) (suffix : List LogEntry) (accepted : Nat) : Prop :=
  firstSlot suffix accepted ≤ r.progress.accepted + 1 →
    ∀ slot < firstSlot suffix accepted, r.progress.committed < slot →
      Journal.get r.journal slot = Journal.get origin.journal slot

instance (r origin : Replica SegmentedLog) (suffix : List LogEntry) (accepted : Nat) :
    Decidable (GapAgrees r origin suffix accepted) :=
  inferInstanceAs (Decidable (_ → ∀ slot < _, _))

/-- The gaps agree below every report in hand that is of a higher ballot than the replica's own
history. -/
def ReportsAgree (sent : List Envelope) (r : Replica SegmentedLog) (attempt : ViewChangeVolatile) :
    Prop :=
  ∀ p ∈ attempt.evidence.entries, r.progress.retained < p.2.retained →
    ∀ e ∈ sent, Genesis.Carries e p.1 attempt.target p.2 →
      GapAgrees r e.origin p.2.suffix p.2.accepted

instance (sent : List Envelope) (r : Replica SegmentedLog) (attempt : ViewChangeVolatile) :
    Decidable (ReportsAgree sent r attempt) :=
  inferInstanceAs (Decidable (∀ p ∈ attempt.evidence.entries, _ → ∀ e ∈ sent, _ → _))

namespace Genesis

variable {g : Genesis} {a a₁ : Ledger} {sent : List Envelope} {node : Nat}
  {r : Replica SegmentedLog} {target : Ballot}

theorem gap_logs (htracks : g.Tracks a sent node r) {origin : Replica SegmentedLog}
    {suffix offered : List LogEntry} {accepted : Nat} (h : GapAgrees r origin suffix accepted)
    (hreads : Reads origin.journal offered)
    (hnear : firstSlot suffix accepted ≤ (a.nodes node).log.length + 1) {slot : Nat}
    (hslot : slot < firstSlot suffix accepted) (hopen : r.progress.committed < slot) :
    logAt (a.nodes node).log slot = logAt offered slot := by
  have hr := htracks.record
  have hwindow := htracks.window
  have hsome : (Journal.get r.journal slot).isSome = true :=
    LawfulJournal.get_isSome htracks.frontier (by omega) (by omega)
  obtain ⟨entry, hentry⟩ := Option.isSome_iff_exists.mp hsome
  rw [htracks.reads slot entry hentry]
  rw [h (by rw [hr.accepted]; exact hnear) slot hslot hopen] at hentry
  exact (hreads slot entry hentry).symm

/-- Committed entries stand in every log that holds what may be chosen below a higher ballot. -/
theorem committed_logs (hinv : Inv g.setting a) {ballot : Ballot} {offered : List LogEntry}
    (hholds : ∀ b s, a.Choosable g.setting b s → b < ballot → Agree offered (a.hist b) s)
    (hleft : (a.nodes node).retained < ballot) {slot : Nat} (hpos : 1 ≤ slot)
    (hslot : slot ≤ (a.nodes node).committed) :
    logAt (a.nodes node).log slot = logAt offered slot := by
  obtain ⟨s, rfl⟩ : ∃ s, slot = s + 1 := ⟨slot - 1, by omega⟩
  obtain ⟨b, hle, hchosen, hagree⟩ := (hinv.good node).committed s hslot
  have hother := hholds b s (Chosen.choosable hchosen) (lt_of_le_of_lt hle hleft)
  obtain ⟨entry, hown, hoffered⟩ := hagree.trans hother.symm
  exact Eq.trans hown (Eq.symm hoffered)

/-- What a commit reads through an installed suffix is the new log's. -/
theorem merged_spliced {journal : SegmentedLog} {log log' offered suffix : List LogEntry}
    {accepted discharged : Nat} (hreads : Reads journal log) (hoffers : Offers suffix offered)
    (hshaped : Shaped suffix accepted)
    (hbelow : ∀ slot < firstSlot suffix accepted, logAt log' slot = logAt log slot)
    (hfrom : ∀ slot, firstSlot suffix accepted ≤ slot → slot ≤ accepted →
      logAt log' slot = logAt offered slot ∨
        (slot ≤ discharged ∧ logAt log' slot = logAt log slot)) {slot : Nat}
    (hopen : discharged < slot) (hle : slot ≤ accepted) {entry : LogEntry}
    (h : merged journal suffix slot = some entry) : logAt log' slot = some entry := by
  obtain ⟨-, -, hrun, hend⟩ := firstSlot_of_shaped hshaped
  by_cases hlt : slot < firstSlot suffix accepted
  · rw [hbelow slot hlt]
    unfold merged at h
    rw [hrun.entryAt_eq, if_pos hlt] at h
    exact hreads slot entry h
  · obtain ⟨found, hmem, hslot, hat⟩ := hrun.entryAt_mem slot (by omega) (by omega)
    have heq : found = entry := by
      unfold merged at h
      rw [hat] at h
      exact Option.some.inj h
    subst heq
    rcases hfrom slot (by omega) hle with hoffered | ⟨hdischarged, -⟩
    · rw [hoffered, ← hslot]
      exact hoffers found hmem
    · omega

/-! ### The attempt -/

theorem evidence_body {message : Message} {evidence : Evidence}
    (h : message.evidence = some evidence) :
    ∃ proof, message.body = .doViewChange evidence.retained evidence.accepted evidence.committed
      evidence.suffix .ordinary proof := by
  unfold Message.evidence at h
  split at h
  · rename_i proof hbody
    cases h
    exact ⟨proof, hbody⟩
  · cases h

/-- Evidence in hand is a report on record: the node's own, or one that came in a message. -/
theorem Pursued.report (hsent : ∀ e ∈ sent, g.MessageOk a e) {retained : Ballot}
    {attempt : ViewChangeVolatile} (h : g.Pursued a sent node retained attempt) {n : Nat}
    {evidence : Evidence} (hget : attempt.evidence.get? n = some evidence) :
    ∃ ρ ∈ a.reports, ρ.target = attempt.target ∧ ρ.node = n ∧ Reported ρ evidence ∧
      ((n = node ∧ evidence.retained = retained) ∨
        (g.setting.primary attempt.target ≠ n ∧ ∃ e ∈ sent, Carries e n attempt.target evidence ∧
          Reads e.origin.journal ρ.snapshot.log)) := by
  rcases h.evidence n evidence hget with ⟨rfl, hretained, ρ, hρ, htarget, hnode, hreported⟩ |
    ⟨e, he, hcarries⟩
  · exact ⟨ρ, hρ, htarget, hnode, hreported, Or.inl ⟨rfl, hretained⟩⟩
  · obtain ⟨rfl, htarget, hevidence⟩ := hcarries
    obtain ⟨proof, hbody⟩ := evidence_body hevidence
    have hok := (hsent e he).2
    rw [hbody] at hok
    obtain ⟨-, hprimary, ρ, hρ, hρtarget, hnode, hreported, hreads⟩ := hok
    refine ⟨ρ, hρ, hρtarget.trans htarget, hnode, hreported, Or.inr ⟨htarget ▸ hprimary, e, he,
      ⟨rfl, htarget, hevidence⟩, hreads⟩⟩

/-- **An attempt gone on with**: the node has left its ballot for the target. -/
structure Pursuing (g : Genesis) (a a₁ : Ledger) (node : Nat) (target : Ballot) : Prop where
  advances : g.Advances node a a₁
  inv : Inv g.setting a₁
  grows : Grows a a₁
  whole : a₁.Whole node
  moved : a₁.nodes node = { a.nodes node with current := target }
  left : (a.nodes node).retained < target
  era : target.era = 1

theorem Pursuing.recorded (h : Pursuing g a a₁ node target) (htracks : g.Tracks a sent node r)
    {candidate : Progress} (hcandidate : candidate.toProgressData =
      { r.progress.toProgressData with
        current := target, status := .viewChange, revision := r.progress.revision + 1 }) :
    g.Recorded (a₁.nodes node) candidate.toProgressData := by
  have hr := htracks.record
  rw [hcandidate, h.moved]
  exact
    { config := hr.config
      era := h.era
      current := rfl
      retained := hr.retained
      accepted := hr.accepted
      committed := hr.committed
      genesis := hr.genesis
      status := Or.inr (Or.inl ⟨rfl, h.left⟩) }

/-- The attempt kept open lands. -/
theorem Pursuing.keep (h : Pursuing g a a₁ node target) (htracks : g.Tracks a sent node r)
    {candidate : Progress} (hcandidate : candidate.toProgressData =
      { r.progress.toProgressData with
        current := target, status := .viewChange, revision := r.progress.revision + 1 })
    {attempt : ViewChangeVolatile} (htarget : attempt.target = target)
    (hpursued : g.Pursued a₁ sent node r.progress.retained attempt) {effects : List Effect}
    (heffects : ∀ effect ∈ effects, g.Effective a₁ node effect) (kind : InputKind) :
    g.Refines a sent node r (r.keepAttempt candidate attempt effects kind) := by
  refine ⟨a₁, h.advances, ?_⟩
  exact
    { record := h.recorded htracks hcandidate
      log := by
        rw [h.moved]
        rfl
      attempt := fun other hother => by
        cases hother
        show attempt.target = candidate.current ∧ candidate.status = .viewChange ∧
          g.Pursued a₁ sent node candidate.retained attempt
        rw [hcandidate]
        exact ⟨htarget, rfl, hpursued⟩
      counted := by
        show Counted a₁ candidate.retained _
        rw [hcandidate]
        exact counted_next (Or.inr (htracks.counted.mono h.grows)) (fun _ hmem => nomatch hmem)
          fun _ hmem => nomatch hmem
      offered := htracks.offered
      planned := rfl
      reincarnation := htracks.reincarnation
      planExecution := htracks.planExecution
      effects := heffects }

/-- The node's evidence of itself is its log, with as much of it as fits. -/
theorem own_reported (htracks : g.Tracks a sent node r) {σ : Snapshot Ballot LogEntry}
    (hretained : σ.retained = (a.nodes node).retained) (hlog : σ.log = (a.nodes node).log)
    (hcommitted : σ.committed = (a.nodes node).committed) {ballot : Ballot} :
    Reported { target := ballot, node := node, snapshot := σ } r.ownEvidence := by
  have hr := htracks.record
  have hnone : Offers [] (a.nodes node).log := fun _ hmem => nomatch hmem
  have hempty : Shaped [] r.progress.accepted := Or.inl rfl
  obtain ⟨hoffers, hshaped⟩ := boundedSuffix_run htracks.reads hnone hempty fun _ _ => rfl
  exact
    { retained := hr.retained.trans hretained.symm
      accepted := by
        rw [hlog]
        exact hr.accepted
      committed := hr.committed.trans hcommitted.symm
      offers := by
        rw [hlog]
        exact hoffers
      shaped := hshaped }

/-- **The node's own evidence** is a report of its node, once it is recorded. -/
theorem Pursuing.recordOwnEvidence (h : Pursuing g a a₁ node target)
    (htracks : g.Tracks a sent node r) {attempt attempt' : ViewChangeVolatile}
    (htarget : attempt.target = target)
    (hpursued : g.Pursued a₁ sent node r.progress.retained attempt)
    {effects effects' : List Effect} (heffects : ∀ a', ∀ effect ∈ effects,
      g.Effective a' node effect) {config : Configuration}
    (hrecord : r.recordOwnEvidence config attempt effects = .ok (attempt', effects')) :
    ∃ a₂, Pursuing g a a₂ node target ∧ Grows a₁ a₂ ∧ attempt'.target = target ∧
      g.Pursued a₂ sent node r.progress.retained attempt' ∧
      (∀ effect ∈ effects', g.Effective a₂ node effect) ∧
      (r.primaryOf target = some r.own → effects' = effects) ∧
      attempt'.selected = attempt.selected ∧
      ∀ n evidence, attempt'.evidence.get? n = some evidence →
        attempt.evidence.get? n = some evidence ∨ evidence.retained = r.progress.retained := by
  have hkept : ∃ a₂, Pursuing g a a₂ node target ∧ Grows a₁ a₂ ∧ attempt.target = target ∧
      g.Pursued a₂ sent node r.progress.retained attempt ∧
      (∀ effect ∈ effects, g.Effective a₂ node effect) ∧
      (r.primaryOf target = some r.own → effects = effects) ∧
      attempt.selected = attempt.selected ∧
      ∀ n evidence, attempt.evidence.get? n = some evidence →
        attempt.evidence.get? n = some evidence ∨ evidence.retained = r.progress.retained :=
    ⟨a₁, h, Grows.refl a₁, htarget, hpursued, heffects a₁, fun _ => rfl, rfl,
      fun _ _ hget => Or.inl hget⟩
  unfold Replica.recordOwnEvidence at hrecord
  split at hrecord
  · cases hrecord
    exact hkept
  · split at hrecord
    · cases hrecord
      exact hkept
    · -- The report is a step of the node.
      have hleft : (a₁.nodes node).retained < (a₁.nodes node).current := by
        rw [h.moved]
        exact h.left
      have hstep : Step g.setting a₁ (a₁.report node) := .report node h.whole hleft
      obtain ⟨hinv, hgrows⟩ := h.inv.step hstep
      have hpursuing : Pursuing g a (a₁.report node) node target :=
        { advances := h.advances.tail hstep fun _ _ => rfl
          inv := hinv
          grows := h.grows.trans hgrows
          whole := h.whole.step hstep
          moved := h.moved
          left := h.left
          era := h.era }
      have hreported : Reported
          { target := (a₁.nodes node).current, node := node
            snapshot := (a₁.nodes node).snapshot } r.ownEvidence := by
        rw [h.moved]
        exact own_reported htracks rfl rfl rfl
      have hcurrent : (a₁.nodes node).current = target := by rw [h.moved]
      have hmem : ({ target := (a₁.nodes node).current, node := node
                     snapshot := (a₁.nodes node).snapshot } : Report Nat Ballot LogEntry) ∈
          (a₁.report node).reports := Set.mem_insert _ _
      have hpursued' : g.Pursued (a₁.report node) sent node r.progress.retained
          { attempt with evidence := attempt.evidence.insert r.own r.ownEvidence } := by
        have hold := hpursued.mono hgrows fun _ he => he
        refine ⟨fun n evidence hget => ?_, fun n evidence hselected => ?_⟩
        · simp only [OrdMap.get?_insert] at hget
          split at hget
          · rename_i heq
            cases hget
            exact Or.inl ⟨heq.trans htracks.own, rfl, _, hmem, hcurrent.trans htarget.symm, rfl,
              hreported⟩
          · exact hold.evidence n evidence hget
        · obtain ⟨hget, hrest⟩ := hold.selected n evidence hselected
          refine ⟨?_, hrest⟩
          have hfresh : n ≠ r.own := by
            rintro rfl
            rename_i hnone _
            rw [hget] at hnone
            exact hnone rfl
          simp only [OrdMap.get?_insert, if_neg hfresh]
          exact hget
      have hin : ∀ n evidence, (attempt.evidence.insert r.own r.ownEvidence).get? n =
          some evidence → attempt.evidence.get? n = some evidence ∨
            evidence.retained = r.progress.retained := by
        intro n evidence hget
        rw [OrdMap.get?_insert] at hget
        split at hget
        · cases hget
          exact Or.inr rfl
        · exact Or.inl hget
      simp only at hrecord
      split at hrecord
      · cases hrecord
        exact ⟨_, hpursuing, hgrows, htarget, hpursued', heffects _, fun _ => rfl, rfl, hin⟩
      · rename_i hother
        obtain ⟨report, hreport, hrecord⟩ := bind_eq_ok.mp hrecord
        cases pure_eq_ok.mp hrecord
        refine ⟨_, hpursuing, hgrows, htarget, hpursued', fun effect heffect => ?_,
          fun hself => absurd (htarget ▸ hself) hother, rfl, hin⟩
        rcases List.mem_append.mp heffect with heffect | heffect
        · exact heffects _ effect heffect
        · rw [List.mem_singleton] at heffect
          subst heffect
          unfold Replica.doViewChangeEffect at hreport
          split at hreport
          · cases hreport
          · rename_i recipient hrecipient
            obtain ⟨proof, -, hreport⟩ := bind_eq_ok.mp hreport
            cases pure_eq_ok.mp hreport
            rw [htarget] at hrecipient hother ⊢
            refine ⟨h.era, rfl, ?_, _, hmem, hcurrent, rfl, hreported, ?_⟩
            · show g.setting.primary target ≠ node
              rw [htracks.primary h.era hrecipient]
              rintro rfl
              rw [hrecipient, htracks.own] at hother
              exact hother rfl
            · rfl

/-- **The selection at the primary** is the best of a quorum's reports. -/
theorem Pursued.selectOnQuorum (htracks : g.Tracks a sent node r)
    (hsent : ∀ e ∈ sent, g.MessageOk a₁ e)
    (hprimary : g.setting.primary target = node) {attempt : ViewChangeVolatile}
    (htarget : attempt.target = target)
    (hpursued : g.Pursued a₁ sent node r.progress.retained attempt)
    (hown : (attempt.evidence.get? r.own).isSome = true) :
    g.Pursued a₁ sent node r.progress.retained
      (r.selectOnQuorum (config g.order) attempt) := by
  unfold Replica.selectOnQuorum
  split
  · exact hpursued
  · split
    · rename_i hquorum
      refine ⟨hpursued.evidence, fun n selected hselected => ?_⟩
      obtain ⟨hget, hall⟩ := selectHistory_spec hselected
      obtain ⟨own, hself⟩ := Option.isSome_iff_exists.mp hown
      refine ⟨hget, ?_, {m | ∃ ρ ∈ a₁.reports, ρ.target = attempt.target ∧ ρ.node = m ∧
        (ρ.snapshot.retained < selected.retained ∨
          (ρ.snapshot.retained = selected.retained ∧
            ρ.snapshot.log.length ≤ selected.accepted))},
        g.quorum_of_isQuorum (htracks.strategy ▸ hquorum) fun m hm => ?_, fun m hm => hm⟩
      · -- The primary's own evidence did not come in a message.
        obtain ⟨ρ, -, -, -, -, ⟨-, hretained⟩ | ⟨hother, -⟩⟩ := hpursued.report hsent hself
        · exact hretained ▸ (hall _ own hself).retained_le
        · rw [htarget, hprimary, htracks.own] at hother
          exact absurd rfl hother
      · obtain ⟨other, hother⟩ := Option.isSome_iff_exists.mp
          ((OrdMap.mem_keys_iff _ _).mp hm)
        obtain ⟨ρ, hρ, hρtarget, hnode, hreported, -⟩ := hpursued.report hsent hother
        refine ⟨ρ, hρ, hρtarget, hnode, ?_⟩
        rw [← hreported.retained, ← hreported.accepted]
        exact hall m other hother
    · exact hpursued

/-! ### Serving a new ballot -/

/-- **A replica serves the ballot it entered**, with a new log whose committed part is known. -/
theorem serve_refines {a₂ : Ledger} (hinv₂ : Inv g.setting a₂)
    (hadvances : g.Advances node a a₂) (htracks : g.Tracks a sent node r) (hera : target.era = 1)
    {log' : List LogEntry} (hnode : a₂.nodes node =
      { a.nodes node with current := target, retained := target, log := log' })
    {covered applied : Nat} (hle : r.progress.committed ≤ covered)
    (hlen : covered ≤ log'.length) (hknown : g.Known a₂ target covered)
    {plan : PlannedTransition} (hcandidate : plan.candidate.toProgressData =
      r.recordServing target log'.length covered applied g.table)
    (hlog : Mutates (a.nodes node).log plan.journal log')
    (hview : plan.bookkeeping.viewChange = .clear)
    (hoffered : Offered sent (plan.bookkeeping.stalled.applyTo r.stalled))
    (hplanned : plan.bookkeeping.planned = .clear)
    (hreincarnation : plan.bookkeeping.reincarnation = .unchanged)
    (hexecution : plan.bookkeeping.planExecution = .unchanged)
    (hfresh : ∀ p ∈ plan.bookkeeping.proposals, p.2.oks = [])
    (hoks : plan.bookkeeping.oks = [])
    (heffects : ∀ a₃, Inv g.setting a₃ → Grows a₂ a₃ →
      a₃.nodes node =
        { current := target, retained := target, log := log', committed := covered } →
      ∀ effect ∈ plan.effects, g.Effective a₃ node effect) : g.Refines a sent node r plan := by
  have hstep : Step g.setting a₂
      (a₂.move node { a₂.nodes node with committed := covered }) := by
    refine .learn node covered ?_ ?_
    · rw [hnode]
      exact hlen
    · rw [hnode]
      exact hknown
  obtain ⟨hinv₃, hgrows₃⟩ := hinv₂.step hstep
  have hnode₃ : (a₂.move node { a₂.nodes node with committed := covered }).nodes node =
      { current := target, retained := target, log := log', committed := covered } := by
    rw [move_self, hnode]
  have hr := htracks.record
  refine ⟨_, hadvances.tail hstep (move_others node _), ?_⟩
  exact
    { record := by
        rw [hcandidate, hnode₃]
        exact
          { config := rfl
            era := hera
            current := rfl
            retained := rfl
            accepted := rfl
            committed := rfl
            genesis := hr.genesis.trans hle
            status := Or.inl ⟨rfl, rfl⟩ }
      log := by
        rw [hnode₃]
        exact hlog
      attempt := fun attempt hattempt => by
        rw [hview] at hattempt
        cases hattempt
      counted := counted_next (Or.inl hview) hfresh fun ok hok => by
        rw [hoks] at hok
        cases hok
      offered := hoffered
      planned := by
        rw [hplanned]
        rfl
      reincarnation := by
        rw [hreincarnation]
        exact htracks.reincarnation
      planExecution := by
        rw [hexecution]
        exact htracks.planExecution
      effects := heffects _ hinv₃ hgrows₃ hnode₃ }

theorem installedProposals_fresh {overlay : List LogEntry} {committed accepted : Nat}
    {p : Nat × Proposal} (h : p ∈ r.installedProposals overlay committed accepted) :
    p.2.oks = [] := by
  obtain ⟨slot, -, hslot⟩ := List.mem_filterMap.mp h
  split at hslot
  · cases hslot
    rfl
  · cases hslot

/-! ### The win -/

theorem win_self (a : Ledger) (node : Nat) (log : List LogEntry) :
    (a.win node log).nodes node =
      { a.nodes node with retained := (a.nodes node).current, log := log } := by
  show ((a.start (a.nodes node).current log).move node _).nodes node = _
  exact move_self _ _

theorem win_others (a : Ledger) (node : Nat) (log : List LogEntry) :
    ∀ m ≠ node, (a.win node log).nodes m = a.nodes m := by
  intro m hm
  show ((a.start (a.nodes node).current log).move node _).nodes m = _
  rw [nodes_move, if_neg hm]
  rfl

theorem win_opening (a : Ledger) (node : Nat) (log : List LogEntry) :
    (a.nodes node).current ∈ (a.win node log).started ∧
      (a.win node log).opening (a.nodes node).current = log := by
  refine ⟨Set.mem_insert _ _, ?_⟩
  simp [State.win, State.start, State.move, State.ack]

/-- The committed frontier the evidence attests is known below the target. -/
theorem attested_known (hinv : Inv g.setting a₁) (hnode : r.progress.committed =
      (a₁.nodes node).committed) (hle : (a₁.nodes node).retained ≤ target)
    (hsent : ∀ e ∈ sent, g.MessageOk a₁ e) {retained : Ballot} {attempt : ViewChangeVolatile}
    (htarget : attempt.target = target) (hpursued : g.Pursued a₁ sent node retained attempt) :
    r.progress.committed ≤ r.attestedCommit attempt.evidence ∧
      g.Known a₁ target (r.attestedCommit attempt.evidence) := by
  have hown : g.Known a₁ target r.progress.committed := by
    rw [hnode]
    exact (known_committed hinv node).le hle (Nat.le_refl _)
  unfold Replica.attestedCommit
  refine ⟨List.foldlRecOn (motive := (r.progress.committed ≤ ·)) _ max (Nat.le_refl _)
    fun k hk v _ => hk.trans (le_max_left k v), List.foldlRecOn _ max hown fun k hk v hv => ?_⟩
  obtain ⟨evidence, hevidence, rfl⟩ := List.mem_map.mp hv
  obtain ⟨⟨n, other⟩, hentry, rfl⟩ := List.mem_map.mp hevidence
  obtain ⟨ρ, hρ, hρtarget, -, hreported, -⟩ :=
    hpursued.report hsent (OrdMap.get?_of_mem hentry)
  refine hk.max fun s hs => ?_
  have hsound := hinv.reports ρ hρ
  obtain ⟨b, hb, hchosen, -⟩ := hsound.good.committed s (hreported.committed ▸ hs)
  have hbelow := hsound.below
  rw [hρtarget, htarget] at hbelow
  exact ⟨b, hb.trans hbelow.le, hchosen⟩

/-- **The winner's log**: the best report's from the first slot of its suffix on, the node's own
below. -/
theorem Pursuing.won (h : Pursuing g a a₁ node target) (htracks : g.Tracks a sent node r)
    (hsent : ∀ e ∈ sent, g.MessageOk a₁ e) (hprimary : g.setting.primary target = node)
    {attempt : ViewChangeVolatile} (htarget : attempt.target = target)
    (hpursued : g.Pursued a₁ sent node r.progress.retained attempt) {reporter : Nat}
    {selected : Evidence} (hselected : attempt.selected = some (reporter, selected))
    (hgap : ∀ e ∈ sent, Carries e reporter target selected →
      r.progress.retained < selected.retained →
      GapAgrees r e.origin selected.suffix selected.accepted)
    {committed : Nat} {mutation : JournalMutation}
    (hcheck : r.checkSuffix selected.suffix selected.accepted committed r.progress.checkpoint =
      .install mutation) :
    ∃ log', Mutates (a.nodes node).log mutation log' ∧ log'.length = selected.accepted ∧
      Shaped selected.suffix selected.accepted ∧ Offers selected.suffix log' ∧
      (∀ slot < firstSlot selected.suffix selected.accepted,
        logAt log' slot = logAt (a.nodes node).log slot) ∧
      Step g.setting a₁ (a₁.win node log') := by
  have hr := htracks.record
  have hcurrent : (a₁.nodes node).current = target := by rw [h.moved]
  have hretained : (a₁.nodes node).retained = (a.nodes node).retained := by rw [h.moved]
  have hlog : (a₁.nodes node).log = (a.nodes node).log := by rw [h.moved]
  have hcommitted : (a₁.nodes node).committed = (a.nodes node).committed := by rw [h.moved]
  have hleft : (a₁.nodes node).retained < target := hretained ▸ h.left
  obtain ⟨hget, hrank, Q, hQ, hall⟩ := hpursued.selected reporter selected hselected
  obtain ⟨best, hbest, hbtarget, hbnode, hreported, horigin⟩ := hpursued.report hsent hget
  have hbetter : ∀ n ∈ Q, ∃ ρ ∈ a₁.reports, ρ.target = target ∧ ρ.node = n ∧
      ρ.snapshot.NoBetter best.snapshot := by
    intro n hn
    obtain ⟨ρ, hρ, hρtarget, hnode, hbetter⟩ := hall n hn
    refine ⟨ρ, hρ, hρtarget.trans htarget, hnode, ?_⟩
    rwa [hreported.retained, hreported.accepted] at hbetter
  have hbest_committed : ∀ slot, 1 ≤ slot → slot ≤ (a.nodes node).committed →
      logAt (a.nodes node).log slot = logAt best.snapshot.log slot := by
    intro slot hpos hslot
    rw [← hlog]
    exact committed_logs h.inv (fun b s hc hlt => (h.inv.best_holds hQ hbest hbetter hc hlt).2)
      hleft hpos (hcommitted ▸ hslot)
  obtain ⟨log', hmutates, hlen, hnear, hbelow, hfrom⟩ := checkSuffix_spliced htracks.reads
    hr.accepted hreported.offers hreported.shaped hcheck
  have hpoint : r.progress.checkpoint ≤ (a.nodes node).committed := by
    rw [← hr.committed]
    exact r.progress.checkpoint_le_applied.trans r.progress.applied_le_committed
  have hpos := (firstSlot_of_shaped hreported.shaped).1
  -- From its first slot on the log is the best report's.
  have htop : ∀ slot, firstSlot selected.suffix selected.accepted ≤ slot →
      slot ≤ selected.accepted → logAt log' slot = logAt best.snapshot.log slot := by
    intro slot hlow hhigh
    rcases hfrom slot hlow hhigh with hoffered | ⟨hdischarged, hown⟩
    · exact hoffered
    · exact hown.trans (hbest_committed slot (hpos.trans hlow) (hdischarged.trans hpoint))
  refine ⟨log', hmutates, hlen, hreported.shaped, fun entry hmem => ?_, hbelow, ?_⟩
  · obtain ⟨-, -, hrun, hend⟩ := firstSlot_of_shaped hreported.shaped
    have hslot := hrun.mem_slot hmem
    rw [htop entry.slot hslot.1 (by omega)]
    exact hreported.offers entry hmem
  · refine .win node Q best log' h.whole (hcurrent ▸ hprimary) (hcurrent ▸ hleft)
      (h.inv.fresh h.whole (hcurrent ▸ hprimary) (hcurrent ▸ hleft)) hQ hbest
      ((hbtarget.trans htarget).trans hcurrent.symm) (hcurrent ▸ hbetter)
      (hlen.trans hreported.accepted) fun s hs => ?_
    by_cases hlow : firstSlot selected.suffix selected.accepted ≤ s + 1
    · exact Or.inl (htop (s + 1) hlow (by omega))
    · have hown := hbelow (s + 1) (by omega)
      rw [hlog, hretained, hcommitted]
      by_cases hopen : s < (a.nodes node).committed
      · exact Or.inr ⟨hown, Or.inr hopen⟩
      · rcases hrank.lt_or_eq with hhigher | hsame
        · -- A report of a higher ballot came in a message, whose sender held the same entries.
          rcases horigin with ⟨-, hself⟩ | ⟨-, e, he, hcarries, hreads⟩
          · exact absurd hself hhigher.ne'
          · refine Or.inl (hown.trans (gap_logs htracks (hgap e he (htarget ▸ hcarries) hhigher)
              hreads hnear (by omega) ?_))
            rw [hr.committed]
            omega
        · refine Or.inr ⟨hown, Or.inl ?_⟩
          rw [← hreported.retained, ← hsame, hr.retained]

/-- What a commit over an installed suffix reads stands in the new log. -/
theorem spliced_reads {journal : SegmentedLog} {log log' suffix : List LogEntry} {accepted : Nat}
    (hreads : Reads journal log) (hshaped : Shaped suffix accepted) (hoffers : Offers suffix log')
    (hbelow : ∀ slot < firstSlot suffix accepted, logAt log' slot = logAt log slot) {slot : Nat}
    (hpos : 0 < slot) (hle : slot ≤ accepted) {entry : LogEntry}
    (h : merged journal suffix slot = some entry) : logAt log' slot = some entry :=
  merged_spliced hreads hoffers hshaped hbelow (fun _ _ _ => Or.inl rfl) hpos hle h

/-- **The win of a view** serves the selected history, or finds it insufficient. -/
theorem Pursuing.planWinView (h : Pursuing g a a₁ node target) (htracks : g.Tracks a sent node r)
    (hsent : ∀ e ∈ sent, g.MessageOk a₁ e) (hprimary : g.setting.primary target = node)
    {attempt : ViewChangeVolatile} (htarget : attempt.target = target)
    (hpursued : g.Pursued a₁ sent node r.progress.retained attempt) {reporter : Nat}
    {selected : Evidence} (hselected : attempt.selected = some (reporter, selected))
    (hgap : ∀ e ∈ sent, Carries e reporter target selected →
      r.progress.retained < selected.retained →
      GapAgrees r e.origin selected.suffix selected.accepted)
    {effects : List Effect} (heffects : ∀ a', ∀ effect ∈ effects, g.Effective a' node effect)
    {time : Nat} {kind : InputKind} {outcome : WinOutcome}
    (houtcome : r.planWinView target selected attempt.evidence effects time kind =
      .ok outcome) :
    (∃ plan, outcome = .installed plan ∧ (plan.fault = none → g.Refines a sent node r plan)) ∨
      ∃ expected got, outcome = .insufficient expected got effects := by
  have hr := htracks.record
  unfold Replica.planWinView at houtcome
  simp only at houtcome
  split at houtcome
  · cases houtcome
    exact Or.inr ⟨_, _, rfl⟩
  · rename_i hcovered
    rw [not_lt] at hcovered
    split at houtcome
    · cases houtcome
      exact Or.inr ⟨_, _, rfl⟩
    · obtain ⟨plan, hplan, houtcome⟩ := bind_eq_ok.mp houtcome
      cases pure_eq_ok.mp houtcome
      exact Or.inl ⟨plan, rfl, fun hfault => absurd hfault (breachPlan_fault hplan)⟩
    · rename_i mutation hcheck
      obtain ⟨applied, -, houtcome⟩ := bind_eq_ok.mp houtcome
      obtain ⟨log', hmutates, hlen, hshaped, hoffers, hbelow, hstep⟩ :=
        h.won htracks hsent hprimary htarget hpursued hselected hgap hcheck
      obtain ⟨hinv₂, hgrows₂⟩ := h.inv.step hstep
      have hcurrent : (a₁.nodes node).current = target := by rw [h.moved]
      have hnode₂ : (a₁.win node log').nodes node =
          { a.nodes node with current := target, retained := target, log := log' } := by
        rw [win_self, h.moved]
      obtain ⟨hstarted, hopening⟩ := win_opening a₁ node log'
      rw [hcurrent] at hstarted hopening
      have hadvances := h.advances.tail hstep (win_others a₁ node log')
      have hretained : (a₁.nodes node).retained ≤ target := by
        rw [h.moved]
        exact h.left.le
      obtain ⟨hle, hknown⟩ := attested_known h.inv (by rw [h.moved]; exact hr.committed)
        hretained hsent htarget hpursued
      generalize r.attestedCommit attempt.evidence = committed at houtcome hcovered hle hknown
      have hread : ∀ slot entry, r.progress.committed < slot → slot ≤ committed →
          merged r.journal selected.suffix slot = some entry → logAt log' slot = some entry :=
        fun slot entry hlow hhigh hentry => spliced_reads htracks.reads hshaped hoffers hbelow
          (by omega) (by omega) hentry
      rcases htracks.fold hinv₂ selected.suffix committed false (by
        rw [hnode₂]
        exact hread) with ⟨slot, hfold⟩ | ⟨folded, hfold, hconfig, -, -, -⟩
      · rw [hfold] at houtcome
        cases houtcome
      · rw [hfold] at houtcome
        obtain ⟨candidate, hcandidate, houtcome⟩ := bind_eq_ok.mp houtcome
        obtain ⟨applies, happlies, houtcome⟩ := bind_eq_ok.mp houtcome
        obtain ⟨announcements, hannounce, houtcome⟩ := bind_eq_ok.mp houtcome
        cases pure_eq_ok.mp houtcome
        have hdata := Replica.installCandidate_ok hcandidate
        rw [hconfig, ← hlen] at hdata
        refine Or.inl ⟨_, rfl, fun _ => serve_refines hinv₂ hadvances
          htracks h.era hnode₂ hle (hlen ▸ hcovered) (hknown.mono hgrows₂) hdata hmutates rfl
          htracks.offered rfl rfl rfl (fun p hp => installedProposals_fresh hp) rfl
          fun a₃ hinv₃ hgrows₃ hnode₃ effect hmem => ?_⟩
        rcases List.mem_append.mp hmem with hmem | hmem
        · rcases List.mem_append.mp hmem with hmem | hmem
          · exact heffects a₃ effect hmem
          · refine applies_effective hinv₃ happlies (fun slot entry hlow hhigh hentry => ?_)
              (by rw [hnode₃]) effect hmem
            rw [hnode₃]
            exact hread slot entry hlow hhigh hentry
        · obtain ⟨proof, -, hannounce⟩ := bind_eq_ok.mp hannounce
          cases pure_eq_ok.mp hannounce
          obtain ⟨recipient, -, rfl⟩ := mem_sendAll hmem
          have hopened : a₃.opening target = log' :=
            (hgrows₃.opening target hstarted).trans hopening
          obtain ⟨hsuffix, hpacked⟩ := boundedSuffix_run htracks.reads hoffers hshaped hbelow
          refine ⟨h.era, hgrows₃.started hstarted, ?_, ?_, hpacked, ?_, ?_⟩
          · show (a₃.opening target).length = selected.accepted
            rw [hopened, hlen]
          · show Offers _ (a₃.opening target)
            rw [hopened]
            exact hsuffix
          · exact (hknown.mono hgrows₂).mono hgrows₃
          · show a₃.opening target = (a₃.nodes node).log
            rw [hopened, hnode₃]

/-! ### Going on with an attempt -/

/-- **One step of an open view change.** -/
theorem Pursuing.continueViewChange (h : Pursuing g a a₁ node target)
    (htracks : g.Tracks a sent node r) (hsent : ∀ e ∈ sent, g.MessageOk a₁ e)
    {candidate : Progress} (hcandidate : candidate.toProgressData =
      { r.progress.toProgressData with
        current := target, status := .viewChange, revision := r.progress.revision + 1 })
    {attempt : ViewChangeVolatile} (htarget : attempt.target = target)
    (hpursued : g.Pursued a₁ sent node r.progress.retained attempt)
    (hagree : ReportsAgree sent r attempt) {effects : List Effect}
    (heffects : ∀ a', ∀ effect ∈ effects, g.Effective a' node effect) {time : Nat}
    {kind : InputKind} {plan : PlannedTransition}
    (hplan : r.continueViewChange candidate attempt effects time kind = .ok plan)
    (hfault : plan.fault = none) : g.Refines a sent node r plan := by
  unfold Replica.continueViewChange at hplan
  simp only [htarget] at hplan
  split at hplan
  · exact dropPlan_refines htracks hplan
  · rename_i record hrecord
    rw [htracks.record.config, h.era, g.table_record] at hrecord
    cases hrecord
    obtain ⟨⟨attempt', effects'⟩, hown, hplan⟩ := bind_eq_ok.mp hplan
    obtain ⟨a₂, h₂, hgrows, htarget', hpursued', heffects', hsame, -, hevidence⟩ :=
      h.recordOwnEvidence htracks htarget hpursued heffects hown
    have hsent' : ∀ e ∈ sent, g.MessageOk a₂ e := fun e he => (hsent e he).mono hgrows
    simp only at hplan
    split at hplan
    · rename_i hleads
      obtain ⟨hself, hheld⟩ := hleads
      have hprimary : g.setting.primary target = node :=
        (htracks.primary h.era hself).trans htracks.own
      have hchosen := Pursued.selectOnQuorum htracks hsent' hprimary htarget' hpursued' hheld
      have hkept : (r.selectOnQuorum (config g.order) attempt').target = target ∧
          (r.selectOnQuorum (config g.order) attempt').evidence = attempt'.evidence := by
        unfold Replica.selectOnQuorum
        split
        · exact ⟨htarget', rfl⟩
        · split
          · exact ⟨htarget', rfl⟩
          · exact ⟨htarget', rfl⟩
      rw [g.table_config] at hplan
      generalize r.selectOnQuorum (config g.order) attempt' = attempt'' at hplan hchosen hkept
      obtain ⟨htarget'', hsameEvidence⟩ := hkept
      split at hplan
      · cases pure_eq_ok.mp hplan
        exact h₂.keep htracks hcandidate htarget'' hchosen heffects' kind
      · rename_i reporter selected hselected
        have hgap : ∀ e ∈ sent, Carries e reporter target selected →
            r.progress.retained < selected.retained →
            GapAgrees r e.origin selected.suffix selected.accepted := by
          intro e he hcarries hhigher
          obtain ⟨hget, -⟩ := hchosen.selected reporter selected hselected
          rcases hevidence reporter selected (hsameEvidence ▸ hget) with hin | hretained
          · exact hagree _ (OrdMap.mem_of_get? hin) hhigher e he (htarget.symm ▸ hcarries)
          · exact absurd hretained hhigher.ne'
        obtain ⟨outcome, houtcome, hplan⟩ := bind_eq_ok.mp hplan
        rw [hsame hself] at houtcome
        rcases h₂.planWinView htracks hsent' hprimary htarget'' hchosen hselected hgap heffects
          houtcome with ⟨won, rfl, hrefines⟩ | ⟨expected, got, rfl⟩
        · cases pure_eq_ok.mp hplan
          exact hrefines hfault
        · have hopen := (h₂.keep htracks hcandidate htarget'' hchosen (heffects a₂)
            kind).withDiagnostic (.gapDetected expected got)
          simp only at hplan
          split at hplan
          · cases pure_eq_ok.mp hplan
            exact hopen.withFetch
          · cases pure_eq_ok.mp hplan
            exact hopen
    · cases pure_eq_ok.mp hplan
      exact h₂.keep htracks hcandidate htarget' hpursued' heffects' kind

/-- **The fence** into a higher view of the era. -/
theorem enterViewChange_refines (hinv : Inv g.setting a) (htracks : g.Tracks a sent node r)
    (hsent : ∀ e ∈ sent, g.MessageOk a e) (hwhole : a.Whole node) (hera : target.era = 1)
    {heard : OrdMap Nat Unit} {time : Nat} {kind : InputKind} {plan : PlannedTransition}
    (hplan : r.enterViewChange target heard time kind = .ok plan)
    (hfault : plan.fault = none) : g.Refines a sent node r plan := by
  obtain ⟨candidate, hcandidate, hplan⟩ := bind_eq_ok.mp hplan
  obtain ⟨hsuccessor, hdata⟩ :=
    Replica.withViewChange_ok (Replica.asCandidate_eq_ok.mp hcandidate)
  have hahead : (a.nodes node).current < target := by
    rw [← htracks.record.current]
    exact Ballot.lt_of_isLegalSuccessor hsuccessor
  have hstep : Step g.setting a (a.move node { a.nodes node with current := target }) :=
    .fence node target hahead
  obtain ⟨hinv₁, hgrows₁⟩ := hinv.step hstep
  have hpursuing :
      Pursuing g a (a.move node { a.nodes node with current := target }) node target :=
    { advances := (Advances.refl g node a).tail hstep (move_others node _)
      inv := hinv₁
      grows := hgrows₁
      whole := hwhole.step hstep
      moved := move_self _ _
      left := lt_of_le_of_lt (hinv.retained_le node) hahead
      era := hera }
  refine hpursuing.continueViewChange htracks (fun e he => (hsent e he).mono hgrows₁) hdata rfl
    ⟨fun n evidence hget => ?_, fun n evidence hselected => ?_⟩ ?_ ?_ hplan hfault
  · rw [OrdMap.get?_empty] at hget
    cases hget
  · cases hselected
  · intro p hp
    cases hp
  · intro a' effect hmem
    obtain ⟨recipient, -, rfl⟩ := mem_sendAll hmem
    exact ⟨hera, trivial⟩

/-- An attempt goes on in the state it is in. -/
theorem Tracks.pursuing (hinv : Inv g.setting a) (htracks : g.Tracks a sent node r)
    (hwhole : a.Whole node) {attempt : ViewChangeVolatile} (h : r.viewChange = some attempt) :
    Pursuing g a a node attempt.target := by
  obtain ⟨htarget, hstatus, -⟩ := htracks.attempt attempt h
  have hcurrent : (a.nodes node).current = attempt.target := by
    rw [← htracks.record.current, htarget]
  exact
    { advances := Advances.refl g node a
      inv := hinv
      grows := Grows.refl a
      whole := hwhole
      moved := by rw [← hcurrent]
      left := hcurrent ▸ htracks.fenced hstatus
      era := htarget ▸ htracks.record.era }

/-- The record an attempt goes on with. -/
theorem Tracks.identity (htracks : g.Tracks a sent node r) {attempt : ViewChangeVolatile}
    (h : r.viewChange = some attempt) {candidate : Progress}
    (hcandidate : r.identityCandidate = .ok candidate) :
    candidate.toProgressData =
      { r.progress.toProgressData with
        current := attempt.target, status := .viewChange
        revision := r.progress.revision + 1 } := by
  obtain ⟨htarget, hstatus, -⟩ := htracks.attempt attempt h
  rw [Replica.identityCandidate_ok hcandidate, htarget, ← hstatus]

/-! ### Handlers -/

/-- An operator's view is a higher view of the era. -/
theorem planAdminForceView_refines (hinv : Inv g.setting a) (htracks : g.Tracks a sent node r)
    (hsent : ∀ e ∈ sent, g.MessageOk a e) (hwhole : a.Whole node) {time : Nat}
    {plan : PlannedTransition} (h : r.planAdminForceView target time = .ok plan)
    (hfault : plan.fault = none) : g.Refines a sent node r plan := by
  have hr := htracks.record
  unfold Replica.planAdminForceView at h
  simp only at h
  split at h
  · cases h
  · split at h
    · cases h
    · rename_i hera
      split at h
      · cases h
      · rw [hr.config, g.table_era, hr.era, and_self, not_not] at hera
        exact enterViewChange_refines hinv htracks hsent hwhole hera h hfault

theorem planHigherViewSignal_refines (hinv : Inv g.setting a) (htracks : g.Tracks a sent node r)
    (hsent : ∀ e ∈ sent, g.MessageOk a e) (hwhole : a.Whole node) (hera : target.era = 1)
    {sender time : Nat} {kind : InputKind} {plan : PlannedTransition}
    (h : r.planHigherViewSignal sender target time kind = .ok plan)
    (hfault : plan.fault = none) : g.Refines a sent node r plan := by
  obtain ⟨fenced, hfenced, h⟩ := bind_eq_ok.mp h
  split at h
  · cases pure_eq_ok.mp h
    exact (enterViewChange_refines hinv htracks hsent hwhole hera hfenced hfault).withFetch
  · cases pure_eq_ok.mp h
    exact enterViewChange_refines hinv htracks hsent hwhole hera hfenced hfault

theorem planStartViewChange_refines (hinv : Inv g.setting a) (htracks : g.Tracks a sent node r)
    (hsent : ∀ e ∈ sent, g.MessageOk a e) (hwhole : a.Whole node) {sender : Nat}
    {message : Message} (hera : message.header.view.era = 1)
    (hagree : ∀ attempt, r.viewChange = some attempt → ReportsAgree sent r attempt) {time : Nat}
    {kind : InputKind} {plan : PlannedTransition}
    (h : r.planStartViewChange sender message time kind = .ok plan)
    (hfault : plan.fault = none) : g.Refines a sent node r plan := by
  unfold Replica.planStartViewChange at h
  simp only at h
  split at h
  · exact dropPlan_refines htracks h
  · split at h
    · exact dropPlan_refines htracks h
    · split at h
      · split at h
        · exact dropPlan_refines htracks h
        · exact enterViewChange_refines hinv htracks hsent hwhole hera h hfault
      · rename_i attempt hattempt
        split at h
        · exact dropPlan_refines htracks h
        · split at h
          · exact enterViewChange_refines hinv htracks hsent hwhole hera h hfault
          · obtain ⟨candidate, hcandidate, h⟩ := bind_eq_ok.mp h
            obtain ⟨-, -, hpursued⟩ := htracks.attempt attempt hattempt
            refine (htracks.pursuing hinv hwhole hattempt).continueViewChange htracks hsent
              (htracks.identity hattempt hcandidate)
              (show ({ attempt with fences := attempt.fences.insert sender () } :
                ViewChangeVolatile).target = attempt.target from rfl)
              ⟨hpursued.evidence, hpursued.selected⟩ (hagree attempt hattempt) (by simp) h hfault

/-- **A report** joins the evidence of the open attempt. -/
theorem planOrdinaryEvidence_refines (hinv : Inv g.setting a) (htracks : g.Tracks a sent node r)
    (hsent : ∀ e ∈ sent, g.MessageOk a e) (hwhole : a.Whole node) {sender : Nat}
    {message : Message} {evidence : Evidence} (hevidence : message.evidence = some evidence)
    (hin : ∃ e ∈ sent, e.sender = sender ∧ e.message = message)
    (hagree : ∀ attempt, r.viewChange = some attempt → ReportsAgree sent r attempt)
    (harriving : r.progress.retained < evidence.retained →
      ∀ e ∈ sent, Carries e sender message.header.view evidence →
        GapAgrees r e.origin evidence.suffix evidence.accepted) {proof : EraProof} {time : Nat}
    {kind : InputKind} {plan : PlannedTransition}
    (h : r.planOrdinaryEvidence sender message evidence proof time kind = .ok plan)
    (hfault : plan.fault = none) : g.Refines a sent node r plan := by
  unfold Replica.planOrdinaryEvidence at h
  simp only at h
  split at h
  · exact dropPlan_refines htracks h
  · split at h
    · exact dropPlan_refines htracks h
    · split at h
      · exact dropPlan_refines htracks h
      · split at h
        · exact dropPlan_refines htracks h
        · rename_i attempt hattempt
          split at h
          · exact dropPlan_refines htracks h
          · rename_i hlow
            split at h
            · exact dropPlan_refines htracks h
            · rename_i hhigh
              rw [not_or] at hhigh
              have hview : message.header.view = attempt.target :=
                le_antisymm (not_lt.mp hhigh.1) (not_lt.mp hlow)
              obtain ⟨candidate, hcandidate, h⟩ := bind_eq_ok.mp h
              obtain ⟨-, -, hpursued⟩ := htracks.attempt attempt hattempt
              have hcollected : ∀ n other, (Replica.collectEvidence attempt.evidence sender
                  evidence).get? n = some other → attempt.evidence.get? n = some other ∨
                    (n = sender ∧ other = evidence) := by
                intro n other hget
                unfold Replica.collectEvidence at hget
                split at hget
                · exact Or.inl hget
                · rw [OrdMap.get?_insert] at hget
                  split at hget
                  · rename_i heq
                    exact Or.inr ⟨heq, (Option.some.inj hget).symm⟩
                  · exact Or.inl hget
              refine (htracks.pursuing hinv hwhole hattempt).continueViewChange htracks hsent
                (htracks.identity hattempt hcandidate)
                (show ({ attempt with
                    evidence := Replica.collectEvidence attempt.evidence sender evidence } :
                  ViewChangeVolatile).target = attempt.target from rfl)
                ⟨fun n other hget => ?_, fun n selected hselected => ?_⟩ (fun p hp => ?_)
                (by simp) h hfault
              · rcases hcollected n other hget with hold | ⟨rfl, rfl⟩
                · exact hpursued.evidence n other hold
                · obtain ⟨e, he, rfl, rfl⟩ := hin
                  exact Or.inr ⟨e, he, rfl, hview, hevidence⟩
              · obtain ⟨hget, hrest⟩ := hpursued.selected n selected hselected
                refine ⟨?_, hrest⟩
                show (Replica.collectEvidence attempt.evidence sender evidence).get? n = _
                unfold Replica.collectEvidence
                split
                · exact hget
                · rename_i hnone
                  rw [OrdMap.get?_insert, if_neg]
                  · exact hget
                  · rintro rfl
                    rw [hget] at hnone
                    exact hnone rfl
              · rcases hcollected p.1 p.2 (OrdMap.get?_of_mem hp) with hold | ⟨hn, hother⟩
                · exact hagree attempt hattempt p (OrdMap.mem_of_get? hold)
                · intro hhigher e he hcarries
                  rw [hother] at hhigher hcarries ⊢
                  refine harriving hhigher e he ?_
                  rw [hview, ← hn]
                  exact hcarries

theorem Landed.withStalledOffer {log : List LogEntry} {plan : PlannedTransition}
    (h : g.Landed a sent node r log plan) {sender : Nat} {message : Message}
    (hin : ∃ e ∈ sent, e.sender = sender ∧ e.message = message) :
    g.Landed a sent node r log (plan.withStalledOffer sender message) :=
  { h with
    offered := fun offer hoffer => by
      cases hoffer
      exact hin }

/-- A view the replica may adopt. -/
def Adoptable (r : Replica SegmentedLog) (view : Ballot) : Prop :=
  r.progress.current < view ∨
    (view = r.progress.current ∧ r.progress.status = .viewChange)

instance (r : Replica SegmentedLog) (view : Ballot) : Decidable (Adoptable r view) :=
  inferInstanceAs (Decidable (_ ∨ _))

/-- **The install of an announced view** serves what the ballot opened with. -/
theorem planStartView_refines (hinv : Inv g.setting a) (htracks : g.Tracks a sent node r)
    {e : Envelope} (he : e ∈ sent) (hok : g.MessageOk a e) {suffix : List LogEntry}
    {accepted committed : Nat} {proof : EraProof}
    (hbody : e.message.body = .startView suffix accepted committed proof)
    (hgap : Adoptable r e.message.header.view → GapAgrees r e.origin suffix accepted)
    {time : Nat} {kind : InputKind} {plan : PlannedTransition}
    (h : r.planStartView e.sender e.message suffix accepted committed proof time kind = .ok plan)
    (hfault : plan.fault = none) : g.Refines a sent node r plan := by
  have hr := htracks.record
  obtain ⟨hera, hok⟩ := hok
  unfold Message.InEra at hera
  rw [hbody] at hera hok
  obtain ⟨hstarted, hlen, hoffers, hshaped, hknown, horigin⟩ := hok
  cases Replica.planStartView_cases h with
  | unevaluable hnone _ =>
    rw [hr.config, hera, g.table_record] at hnone
    cases hnone
  | dropped _ hdrop => exact dropPlan_refines htracks hdrop
  | breached hbreach => exact absurd hfault (breachPlan_fault hbreach)
  | gap expected got dropped hdropped hplan =>
    subst hplan
    obtain ⟨a', hadvances, hlanded⟩ := (dropPlan_refines htracks hdropped).withFetch
    exact ⟨a', hadvances, hlanded.withStalledOffer ⟨e, he, rfl, rfl⟩⟩
  | installed record _ _ hshape hadoptable hbehind mutation hcheck applied _ folded hfold candidate
      hcandidate effects happlies hplan =>
    rw [not_or, not_or, not_lt] at hshape
    rw [not_or, not_lt, not_lt] at hbehind
    have hretained : (a.nodes node).retained < e.message.header.view := by
      rcases hadoptable with hlt | ⟨heq, hfenced⟩
      · rw [hr.current] at hlt
        exact lt_of_le_of_lt (hinv.retained_le node) hlt
      · rw [heq, hr.current]
        exact htracks.fenced hfenced
    have hcurrent : (a.nodes node).current ≤ e.message.header.view := by
      rw [← hr.current]
      rcases hadoptable with hlt | ⟨heq, -⟩
      · exact hlt.le
      · exact heq.ge
    obtain ⟨log', hmutates, hlen', hnear, hbelow, hfrom⟩ :=
      checkSuffix_spliced htracks.reads hr.accepted hoffers hshaped hcheck
    have hheld : ∀ slot, 1 ≤ slot → slot ≤ (a.nodes node).committed →
        logAt (a.nodes node).log slot = logAt (a.opening e.message.header.view) slot :=
      fun slot hpos hslot =>
        committed_logs hinv (fun b s hc hlt => hinv.holds _ hstarted b s hc hlt)
          hretained hpos hslot
    have hpoint : r.progress.checkpoint ≤ (a.nodes node).committed := by
      rw [← hr.committed]
      exact r.progress.checkpoint_le_applied.trans r.progress.applied_le_committed
    -- The new log is the opening: offered above, held by both below.
    have hopened : log' = a.opening e.message.header.view := by
      refine eq_of_logAt (hlen'.trans hlen.symm) fun slot hpos hslot => ?_
      by_cases hlow : slot < firstSlot suffix accepted
      · rw [hbelow slot hlow]
        by_cases hopen : r.progress.committed < slot
        · exact gap_logs htracks (hgap hadoptable) horigin hnear hlow hopen
        · exact hheld slot hpos (by rw [← hr.committed]; omega)
      · rcases hfrom slot (by omega) (by omega) with heq | ⟨hdischarged, heq⟩
        · exact heq
        · exact heq.trans (hheld slot hpos (hdischarged.trans hpoint))
    rw [hopened] at hmutates hbelow
    have hstep : Step g.setting a (a.move node
        { a.nodes node with
          current := e.message.header.view, retained := e.message.header.view
          log := a.opening e.message.header.view }) :=
      .install node _ hcurrent hretained hstarted
    obtain ⟨hinv₂, hgrows₂⟩ := hinv.step hstep
    have hnode₂ := move_self (a := a) node
      { a.nodes node with
        current := e.message.header.view, retained := e.message.header.view
        log := a.opening e.message.header.view }
    have hread : ∀ slot entry, r.progress.committed < slot → slot ≤ committed →
        merged r.journal suffix slot = some entry →
        logAt (a.opening e.message.header.view) slot = some entry :=
      fun slot entry hlow hhigh hentry =>
        spliced_reads htracks.reads hshaped hoffers hbelow (by omega) (by omega) hentry
    rcases htracks.fold hinv₂ suffix committed false (by
      rw [hnode₂]
      exact hread) with ⟨slot, hfold'⟩ | ⟨folded', hfold', hconfig, -, -, -⟩
    · rw [hfold'] at hfold
      cases hfold
    · rw [hfold'] at hfold
      cases hfold
      subst hplan
      have hdata := Replica.installCandidate_ok hcandidate
      rw [hconfig, ← hlen] at hdata
      refine serve_refines hinv₂
        ((Advances.refl g node a).tail hstep (move_others node _)) htracks hera hnode₂
        hbehind.1 (by omega) (hknown.mono hgrows₂) hdata hmutates rfl
        (fun _ hoffer => nomatch hoffer) rfl rfl rfl (fun _ hp => nomatch hp) rfl
        fun a₃ hinv₃ hgrows₃ hnode₃ effect hmem => ?_
      refine applies_effective hinv₃ happlies (fun slot entry hlow hhigh hentry => ?_)
        (by rw [hnode₃]) effect hmem
      rw [hnode₃]
      exact hread slot entry hlow hhigh hentry

end Genesis

end UvrrCore
