import UvrrCore.Emitted
import UvrrCore.Established

/-!
# Where entries come from

A replica puts an operation at a slot in one place only: where it is proposed, at its own next free
slot. `Mints` is a condition on the entries a plan accepts anew and on the ones it prepares for
others; what a plan installs otherwise is of the suffix it checked.

## Main results

* `checkSuffix_copies`: what a suffix check installs is of the suffix.
* `plan_mints`: what a plan of a fresh input accepts and prepares, it was offered.
-/

namespace UvrrCore

/-- A condition on the operation of an entry and its slot; system entries meet it. -/
def LogEntry.Sourced (Q : Nat → OperationId → List UInt8 → Prop) (entry : LogEntry) : Prop :=
  ∀ id payload, entry.payload = .operation id payload → Q entry.slot id payload

/-- The entries a message carries. -/
def Message.entries (message : Message) : List LogEntry :=
  match message.body with
  | .prepare entry _ => [entry]
  | .doViewChange _ _ _ suffix _ _ => suffix
  | .startView suffix _ _ _ => suffix
  | .newState entries _ _ _ => entries
  | _ => []

/-- Entries that all meet the condition. -/
def Sourced (Q : Nat → OperationId → List UInt8 → Prop) (entries : List LogEntry)
    (_accepted : Nat) : Prop :=
  ∀ entry ∈ entries, entry.Sourced Q

variable {Q : Nat → OperationId → List UInt8 → Prop}

theorem sourced_nil (accepted : Nat) : Sourced Q [] accepted := fun _ hmem =>
  absurd hmem List.not_mem_nil

theorem LogEntry.Sourced.system {slot era : Nat} {op : SystemOperation} :
    (⟨slot, era, .system op⟩ : LogEntry).Sourced Q := by
  intro id payload hpayload
  cases hpayload

/-- What the entry of a prepare meets. -/
def Message.Prepares (Q : Nat → OperationId → List UInt8 → Prop) (message : Message) : Prop :=
  ∀ entry committed, message.body = .prepare entry committed → entry.Sourced Q

/-- A message of any other tag prepares nothing. -/
theorem Message.prepares_other {message : Message}
    (htag : decide (message.tag = .prepare) = false) : message.Prepares Q := by
  intro entry committed hbody
  rw [Message.tag, hbody] at htag
  cases htag

namespace Replica

variable {J : Type} [Journal J] {r : Replica J} {plan : PlannedTransition} {kind : InputKind}
  {time : Nat}

/-- A replica that takes proposals: it serves, and is the primary of its view. -/
def TakesProposals (r : Replica J) : Prop :=
  r.progress.status = .normal ∧ ∃ record, r.currentRecord = some record ∧
    record.config.primary r.progress.current.view = some r.own

omit [Journal J] in
theorem takesProposals_of_record {record : EraRecord} (h : r.proposerRecord = .ok record) :
    r.TakesProposals := by
  unfold proposerRecord at h
  split at h
  · cases h
  · rename_i held hheld
    simp only at h
    split at h
    · rename_i hserves
      exact ⟨hserves.1, held, hheld, hserves.2⟩
    · cases h

/-- What an input offers a replica that takes it meets the condition, at the slot it would get. -/
def Brings (r : Replica J) (Q : Nat → OperationId → List UInt8 → Prop) : Input → Prop
  | .propose operation =>
    r.TakesProposals → Q (r.progress.accepted + 1) operation.id operation.payload
  | .peer _ message => ∀ entry ∈ message.entries, entry.Sourced Q
  | _ => True

/-- **The entries a plan accepts anew and prepares for others** meet a condition. -/
structure Mints (Q : Nat → OperationId → List UInt8 → Prop) (plan : PlannedTransition) : Prop where
  accepts : ∀ entries, plan.journal = .accept entries → ∀ entry ∈ entries, entry.Sourced Q
  prepares : Sending (Message.Prepares Q) plan.effects

/-- A plan that leaves the journal alone mints what it sends. -/
theorem Mints.silent (hjournal : plan.journal = .none)
    (heffects : Sending (Message.Prepares Q) plan.effects) : Mints Q plan where
  accepts entries haccepts := by
    rw [hjournal] at haccepts
    cases haccepts
  prepares := heffects

/-! ### Plans that mint nothing -/

omit [Journal J] in
theorem emitPlan_mints {effects : List Effect} (h : r.emitPlan effects kind = .ok plan)
    (heffects : Sending (Message.Prepares Q) effects) : Mints Q plan := by
  obtain ⟨candidate, -, rfl⟩ := emitPlan_ok h
  exact .silent rfl heffects

omit [Journal J] in
theorem dropPlan_mints {diagnostic : Diagnostic} (h : r.dropPlan diagnostic kind = .ok plan) :
    Mints Q plan := by
  obtain ⟨candidate, -, rfl⟩ := dropPlan_ok h
  exact .silent rfl .nil

omit [Journal J] in
theorem breachPlan_mints (h : r.breachPlan kind = .ok plan) : Mints Q plan := by
  obtain ⟨candidate, -, rfl⟩ := breachPlan_ok h
  exact .silent rfl .nil

/-- More effects on a plan. -/
theorem Mints.more (h : Mints Q plan) {plan' : PlannedTransition} {more : List Effect}
    (hjournal : plan'.journal = plan.journal) (heffects : plan'.effects = plan.effects ++ more)
    (hmore : Sending (Message.Prepares Q) more) : Mints Q plan' where
  accepts := hjournal ▸ h.accepts
  prepares := heffects ▸ h.prepares.append hmore

/-- What else of a plan is changed leaves what it mints. -/
theorem Mints.of_eq (h : Mints Q plan) {plan' : PlannedTransition}
    (hjournal : plan'.journal = plan.journal) (heffects : plan'.effects = plan.effects) :
    Mints Q plan' where
  accepts := hjournal ▸ h.accepts
  prepares := heffects ▸ h.prepares

theorem withFetch_mints (h : Mints Q plan) (view : Ballot) (recipient start : Nat) :
    Mints Q (plan.withFetch (fetch view recipient start)) :=
  h.more rfl rfl (.single (Message.prepares_other rfl))

/-- What a suffix check installs is of the suffix, and installed in its place. -/
theorem checkSuffix_copies {suffix : List LogEntry} {accepted committed discharged : Nat}
    {mutation : JournalMutation}
    (h : r.checkSuffix suffix accepted committed discharged = .install mutation) :
    (∀ entries, mutation ≠ .accept entries) ∧ mutation.written ⊆ suffix := by
  have hnone : (∀ entries, JournalMutation.none ≠ .accept entries) ∧
      JournalMutation.none.written ⊆ suffix := ⟨nofun, List.nil_subset _⟩
  have htail : ∀ start, (∀ entries, JournalMutation.installSuffix start
      (suffix.dropWhile fun entry => entry.slot != start) ≠ .accept entries) ∧
      (JournalMutation.installSuffix start
        (suffix.dropWhile fun entry => entry.slot != start)).written ⊆ suffix := fun start =>
    ⟨nofun, (List.dropWhile_suffix _).subset⟩
  cases suffix with
  | nil =>
    simp only [checkSuffix] at h
    split at h
    · cases h
      exact hnone
    · cases h
  | cons first rest =>
    have hall : ∀ start, (∀ entries, JournalMutation.installSuffix start (first :: rest) ≠
        .accept entries) ∧
        (JournalMutation.installSuffix start (first :: rest)).written ⊆ first :: rest :=
      fun start => ⟨nofun, List.Subset.refl _⟩
    simp only [checkSuffix] at h
    split at h
    · cases h
    · split at h
      · cases h
      · cases h
      · split at h
        · split at h
          · cases h
            exact hall _
          · cases h
            exact hnone
        · cases h
          exact htail _
      · split at h
        · split at h
          · cases h
            exact hall _
          · cases h
            exact hnone
        · cases h
          exact htail _

theorem truncatedMutation_copies {entries : List LogEntry} {newCommitted committed : Nat}
    {mutation : JournalMutation}
    (h : r.truncatedMutation entries newCommitted committed = .install mutation) :
    (∀ accepted, mutation ≠ .accept accepted) ∧ mutation.written ⊆ entries := by
  unfold truncatedMutation at h
  simp only at h
  split at h
  · cases h
    exact ⟨nofun, List.nil_subset _⟩
  · obtain ⟨hinstalls, hcopies⟩ := checkSuffix_copies h
    exact ⟨hinstalls, fun entry hmem => List.mem_of_mem_filter (hcopies hmem)⟩

/-! ### View changes -/

theorem recordOwnEvidence_prepares {config : Configuration} {attempt attempt' : ViewChangeVolatile}
    {effects effects' : List Effect}
    (h : r.recordOwnEvidence config attempt effects = .ok (attempt', effects'))
    (heffects : Sending (Message.Prepares Q) effects) :
    Sending (Message.Prepares Q) effects' := by
  unfold recordOwnEvidence at h
  split at h
  · cases h
    exact heffects
  · split at h
    · cases h
      exact heffects
    · simp only at h
      split at h
      · cases h
        exact heffects
      · obtain ⟨report, hreport, h⟩ := bind_eq_ok.mp h
        cases pure_eq_ok.mp h
        refine heffects.append (.single ?_)
        unfold doViewChangeEffect at hreport
        split at hreport
        · cases hreport
        · obtain ⟨proof, -, hreport⟩ := bind_eq_ok.mp hreport
          cases pure_eq_ok.mp hreport
          exact Message.prepares_other rfl

theorem planWinView_mints {target : Ballot} {selected : Evidence}
    {evidence : OrdMap Nat Evidence} {effects : List Effect}
    (heffects : Sending (Message.Prepares Q) effects)
    (h : r.planWinView target selected evidence effects time kind = .ok (.installed plan)) :
    Mints Q plan := by
  simp only [planWinView] at h
  split at h
  · cases h
  · split at h
    · cases h
    · obtain ⟨breach, hbreach, h⟩ := bind_eq_ok.mp h
      cases pure_eq_ok.mp h
      exact breachPlan_mints hbreach
    · rename_i mutation hcheck
      obtain ⟨applied, -, h⟩ := bind_eq_ok.mp h
      split at h
      · cases h
      · obtain ⟨drop, hdrop, h⟩ := bind_eq_ok.mp h
        cases pure_eq_ok.mp h
        exact (dropPlan_mints hdrop).of_eq rfl rfl
      · obtain ⟨breach, hbreach, h⟩ := bind_eq_ok.mp h
        cases pure_eq_ok.mp h
        exact breachPlan_mints hbreach
      · obtain ⟨candidate, -, h⟩ := bind_eq_ok.mp h
        obtain ⟨applies, happlies, h⟩ := bind_eq_ok.mp h
        obtain ⟨announcements, hannounce, h⟩ := bind_eq_ok.mp h
        cases pure_eq_ok.mp h
        obtain ⟨proof, -, hannounce⟩ := bind_eq_ok.mp hannounce
        cases pure_eq_ok.mp hannounce
        exact ⟨fun entries heq => absurd heq ((checkSuffix_copies hcheck).1 entries),
          (heffects.append (.applyRange happlies)).append (.sendAll (Message.prepares_other rfl))⟩

theorem continueViewChange_mints {candidate : Progress} {attempt : ViewChangeVolatile}
    {effects : List Effect} (heffects : Sending (Message.Prepares Q) effects)
    (h : r.continueViewChange candidate attempt effects time kind = .ok plan) : Mints Q plan := by
  simp only [continueViewChange] at h
  split at h
  · exact dropPlan_mints h
  · obtain ⟨⟨recorded, effects'⟩, hrecorded, h⟩ := bind_eq_ok.mp h
    have hkept : Sending (Message.Prepares Q) effects' :=
      recordOwnEvidence_prepares hrecorded heffects
    split at h
    · split at h
      · cases pure_eq_ok.mp h
        exact .silent rfl hkept
      · obtain ⟨outcome, houtcome, h⟩ := bind_eq_ok.mp h
        split at h
        · cases pure_eq_ok.mp h
          exact planWinView_mints hkept houtcome
        · cases planWinView_insufficient houtcome
          split at h
          · cases pure_eq_ok.mp h
            exact .silent rfl (hkept.append (.single (Message.prepares_other rfl)))
          · cases pure_eq_ok.mp h
            exact .silent rfl hkept
    · cases pure_eq_ok.mp h
      exact .silent rfl hkept

theorem enterViewChange_mints {target : Ballot} {heard : OrdMap Nat Unit}
    (h : r.enterViewChange target heard time kind = .ok plan) : Mints Q plan := by
  obtain ⟨candidate, -, h⟩ := bind_eq_ok.mp h
  refine continueViewChange_mints (.sendAll ?_) h
  exact Message.prepares_other rfl

theorem planAdminForceView_mints {target : Ballot}
    (h : r.planAdminForceView target time = .ok plan) : Mints Q plan := by
  simp only [planAdminForceView] at h
  split at h
  · cases h
  · split at h
    · cases h
    · split at h
      · cases h
      · exact enterViewChange_mints h

theorem planHigherViewSignal_mints {sender : Nat} {view : Ballot}
    (h : r.planHigherViewSignal sender view time kind = .ok plan) : Mints Q plan := by
  obtain ⟨entered, hentered, h⟩ := bind_eq_ok.mp h
  have hmints : Mints Q entered := enterViewChange_mints hentered
  split at h
  · cases pure_eq_ok.mp h
    exact withFetch_mints hmints _ _ _
  · cases pure_eq_ok.mp h
    exact hmints

/-- An open attempt carried on. -/
theorem carryOn_mints {attempt : ViewChangeVolatile}
    (h : (do
      let candidate ← r.identityCandidate
      r.continueViewChange candidate attempt [] time kind) = .ok plan) : Mints Q plan := by
  obtain ⟨candidate, -, h⟩ := bind_eq_ok.mp h
  exact continueViewChange_mints .nil h

theorem planStartViewChange_mints {sender : Nat} {message : Message}
    (h : r.planStartViewChange sender message time kind = .ok plan) : Mints Q plan := by
  simp only [planStartViewChange] at h
  split at h
  · exact dropPlan_mints h
  · split at h
    · exact dropPlan_mints h
    · split at h
      · split at h
        · exact dropPlan_mints h
        · exact enterViewChange_mints h
      · split at h
        · exact dropPlan_mints h
        · split at h
          · exact enterViewChange_mints h
          · exact carryOn_mints h

theorem planOrdinaryEvidence_mints {sender : Nat} {message : Message} {evidence : Evidence}
    {proof : EraProof}
    (h : r.planOrdinaryEvidence sender message evidence proof time kind = .ok plan) :
    Mints Q plan := by
  simp only [planOrdinaryEvidence] at h
  split at h
  · exact dropPlan_mints h
  · split at h
    · exact dropPlan_mints h
    · split at h
      · exact dropPlan_mints h
      · split at h
        · exact dropPlan_mints h
        · split at h
          · exact dropPlan_mints h
          · split at h
            · exact dropPlan_mints h
            · exact carryOn_mints h

theorem planStartView_mints {sender : Nat} {message : Message} {suffix : List LogEntry}
    {accepted committed : Nat} {proof : EraProof}
    (h : r.planStartView sender message suffix accepted committed proof time kind = .ok plan) :
    Mints Q plan := by
  cases planStartView_cases h with
  | unevaluable _ hoffer =>
    obtain ⟨drop, hdrop, rfl | rfl | ⟨next, rfl⟩⟩ := planUnevaluableOffer_ok hoffer
    · exact dropPlan_mints hdrop
    · exact (dropPlan_mints hdrop).of_eq rfl rfl
    · exact (dropPlan_mints hdrop).more rfl rfl (.single (Message.prepares_other rfl))
  | dropped _ hdrop => exact dropPlan_mints hdrop
  | breached hbreach => exact breachPlan_mints hbreach
  | gap expected got drop hdrop hplan =>
    subst hplan
    exact (withFetch_mints (dropPlan_mints hdrop) _ _ _).of_eq rfl rfl
  | installed record _ _ _ _ _ mutation hcheck applied _ folded _ candidate _ effects happlies
      hplan =>
    subst hplan
    exact ⟨fun entries heq => absurd heq ((checkSuffix_copies hcheck).1 entries),
      .applyRange happlies⟩

/-! ### Normal operation -/

omit [Journal J] in
theorem proposalPlan_mints {entries : List LogEntry} {last : Nat} {recipients : List Nat}
    {era : Nat} {message : Message} {planned : Update PlannedOverlap}
    (hentries : ∀ entry ∈ entries, entry.Sourced Q) (hmessage : message.Prepares Q)
    (h : r.proposalPlan entries last recipients era message planned kind = .ok plan) :
    Mints Q plan := by
  obtain ⟨candidate, -, h⟩ := bind_eq_ok.mp h
  cases pure_eq_ok.mp h
  refine ⟨fun accepted heq => ?_, .sendAll hmessage⟩
  cases heq
  exact hentries

omit [Journal J] in
/-- **An operation proposed** is what its plan mints. -/
theorem planPropose_mints {operation : Operation}
    (hsource : r.TakesProposals → Q (r.progress.accepted + 1) operation.id operation.payload)
    (h : r.planPropose operation = .ok plan) : Mints Q plan := by
  obtain ⟨record, hrecord, h⟩ := bind_eq_ok.mp h
  obtain ⟨slot, hslot, h⟩ := bind_eq_ok.mp h
  obtain rfl := nextFreeSlot_ok hslot
  have hentry : (⟨r.progress.accepted + 1, r.progress.config.current.era,
      .operation operation.id operation.payload⟩ : LogEntry).Sourced Q := by
    intro id payload hpayload
    cases hpayload
    exact hsource (takesProposals_of_record hrecord)
  refine proposalPlan_mints (fun entry hmem => ?_) (fun entry committed heq => ?_) h
  · rw [List.mem_singleton.mp hmem]
    exact hentry
  · cases heq
    exact hentry

theorem planHeldPrepare_mints {sender : Nat} {entry : LogEntry} {piggybacked : Nat}
    {status : Status} (h : r.planHeldPrepare sender entry piggybacked status kind = .ok plan) :
    Mints Q plan := by
  simp only [planHeldPrepare] at h
  split at h
  · cases h
  · split at h
    · exact dropPlan_mints h
    · split at h
      · cases h
      · exact dropPlan_mints h
      · exact breachPlan_mints h
      · obtain ⟨applied, -, h⟩ := bind_eq_ok.mp h
        obtain ⟨candidate, -, h⟩ := bind_eq_ok.mp h
        obtain ⟨applies, happlies, h⟩ := bind_eq_ok.mp h
        cases pure_eq_ok.mp h
        exact .silent rfl (.cons (Message.prepares_other rfl) (.applyRange happlies))

/-- **An entry prepared by the primary** is what its plan mints. -/
theorem planNextPrepare_mints {sender : Nat} {view : Ballot} {entry : LogEntry}
    {piggybacked : Nat} {status : Status} (hentry : entry.Sourced Q)
    (h : r.planNextPrepare sender view entry piggybacked status kind = .ok plan) :
    Mints Q plan := by
  simp only [planNextPrepare] at h
  split at h
  · cases h
  · exact dropPlan_mints h
  · split at h
    · exact dropPlan_mints h
    · exact breachPlan_mints h
  · obtain ⟨refusal, -, h⟩ := bind_eq_ok.mp h
    split at h
    · exact dropPlan_mints h
    · split at h
      · exact dropPlan_mints h
      · obtain ⟨applied, -, h⟩ := bind_eq_ok.mp h
        obtain ⟨candidate, -, h⟩ := bind_eq_ok.mp h
        obtain ⟨applies, happlies, h⟩ := bind_eq_ok.mp h
        cases pure_eq_ok.mp h
        refine ⟨fun entries heq other hmem => ?_,
          .cons (Message.prepares_other rfl) (.applyRange happlies)⟩
        cases heq
        rw [List.mem_singleton.mp hmem]
        exact hentry

theorem planPrepare_mints {sender : Nat} {message : Message} {entry : LogEntry}
    {piggybacked : Nat} (hentry : entry.Sourced Q)
    (h : r.planPrepare sender message entry piggybacked time kind = .ok plan) : Mints Q plan := by
  cases planPrepare_cases h with
  | dropped _ hdrop => exact dropPlan_mints hdrop
  | signalled _ hsignal => exact planHigherViewSignal_mints hsignal
  | held _ _ _ hheld => exact planHeldPrepare_mints hheld
  | gap next drop hdrop hplan =>
    subst hplan
    exact withFetch_mints (dropPlan_mints hdrop) _ _ _
  | next _ _ _ hnext => exact planNextPrepare_mints hentry hnext

theorem commitBatchEffects_prepares (through rounds slot : Nat) :
    Sending (Message.Prepares Q) (r.commitBatchEffects through rounds slot) := by
  induction rounds generalizing slot with
  | zero => exact .nil
  | succ rounds ih =>
    unfold commitBatchEffects
    simp only
    split
    · exact .nil
    · split
      · exact .nil
      · split
        · exact ih _
        · refine .append ?_ (ih _)
          split
          · exact .sendAll (Message.prepares_other rfl)
          · exact .nil

omit [Journal J] in
theorem overlapSolicitation_prepares {config config' : EraTable} {covered : Nat}
    {effects : List Effect} {planned : Update PlannedOverlap}
    (h : r.overlapSolicitation config covered = .ok (config', effects, planned)) :
    Sending (Message.Prepares Q) effects := by
  unfold overlapSolicitation at h
  split at h
  · cases h
    exact .nil
  · split at h
    · cases h
      exact .nil
    · split at h
      · cases h
      · cases h
        exact .sendAll (Message.prepares_other rfl)

theorem finishCommitQuorum_mints {committed : Nat} {oks : List (Nat × Nat)}
    (h : r.finishCommitQuorum committed oks kind = .ok plan) : Mints Q plan := by
  simp only [finishCommitQuorum] at h
  split at h
  · obtain ⟨emitted, hemitted, h⟩ := bind_eq_ok.mp h
    cases pure_eq_ok.mp h
    exact (emitPlan_mints hemitted .nil).of_eq rfl rfl
  · split at h
    · cases h
    · exact dropPlan_mints h
    · exact breachPlan_mints h
    · obtain ⟨⟨config, solicitation, planned⟩, hsolicit, h⟩ := bind_eq_ok.mp h
      obtain ⟨applied, -, h⟩ := bind_eq_ok.mp h
      obtain ⟨candidate, -, h⟩ := bind_eq_ok.mp h
      obtain ⟨applies, happlies, h⟩ := bind_eq_ok.mp h
      cases pure_eq_ok.mp h
      have hcommit : ∀ frontier, Sending (Message.Prepares Q) (r.broadcastCommit frontier) :=
        fun _ => .sendAll (Message.prepares_other rfl)
      exact .silent rfl ((((Sending.applyRange happlies).append (hcommit _)).append
        (commitBatchEffects_prepares _ _ _)).append (overlapSolicitation_prepares hsolicit))

theorem countVote_mints {sender slot : Nat} {unknown learner foreign duplicate : Diagnostic}
    (h : r.countVote sender slot unknown learner foreign duplicate kind = .ok plan) :
    Mints Q plan := by
  simp only [countVote] at h
  split at h
  · exact dropPlan_mints h
  · obtain ⟨finished, hfinished, h⟩ := bind_eq_ok.mp h
    cases pure_eq_ok.mp h
    exact (finishCommitQuorum_mints hfinished).of_eq rfl rfl
  · split at h
    · exact dropPlan_mints h
    · split at h
      · exact dropPlan_mints h
      · exact finishCommitQuorum_mints h

theorem planPrepareOk_mints {sender : Nat} {message : Message}
    (h : r.planPrepareOk sender message kind = .ok plan) : Mints Q plan := by
  simp only [planPrepareOk] at h
  split at h
  · exact dropPlan_mints h
  · split at h
    · exact dropPlan_mints h
    · exact countVote_mints h

theorem planFuseOk_mints {sender : Nat} {message : Message}
    (h : r.planFuseOk sender message kind = .ok plan) : Mints Q plan := by
  simp only [planFuseOk] at h
  split at h
  · exact dropPlan_mints h
  · split at h
    · exact dropPlan_mints h
    · exact countVote_mints h

theorem planCommit_mints {sender : Nat} {message : Message} {frontier : Nat}
    (h : r.planCommit sender message frontier time kind = .ok plan) : Mints Q plan := by
  cases planCommit_cases h with
  | dropped _ hdrop => exact dropPlan_mints hdrop
  | breached hbreach => exact breachPlan_mints hbreach
  | signalled _ hsignal => exact planHigherViewSignal_mints hsignal
  | steady hemit => exact emitPlan_mints hemit .nil
  | learned _ _ folded applied candidate applies _ _ _ happlies hplan =>
    subst hplan
    exact .silent rfl (.applyRange happlies)

/-! ### Reconfiguration -/

theorem planReconfigure_mints {op : SystemOperation} {pivot : Option Pivot}
    (h : r.planReconfigure op pivot = .ok plan) : Mints Q plan := by
  obtain ⟨record, -, h⟩ := bind_eq_ok.mp h
  obtain ⟨slot, -, h⟩ := bind_eq_ok.mp h
  obtain ⟨table, -, h⟩ := bind_eq_ok.mp h
  obtain ⟨⟨recipients, planned⟩, -, h⟩ := bind_eq_ok.mp h
  refine proposalPlan_mints (fun entry hmem => ?_) (fun entry committed heq => ?_) h
  · rw [List.mem_singleton.mp hmem]
    exact .system
  · cases heq
    exact .system

omit [Journal J] in
theorem slabEntries_sourced {slot : Nat} {ops : List SystemOperation} {eras : List Nat}
    {entries : List LogEntry} (h : slabEntries slot ops eras = .ok entries) :
    ∀ entry ∈ entries, entry.Sourced Q := by
  induction slot, ops, eras using slabEntries.induct generalizing entries with
  | case1 slot op ops era eras hroom ih =>
    rw [slabEntries, if_pos hroom] at h
    obtain ⟨rest, hrest, h⟩ := bind_eq_ok.mp h
    cases pure_eq_ok.mp h
    exact List.forall_mem_cons.mpr ⟨.system, ih hrest⟩
  | case2 slot op ops era eras hfull =>
    rw [slabEntries, if_neg hfull] at h
    cases h
  | case3 slot ops eras hend =>
    rw [slabEntries.eq_2 _ _ _ hend] at h
    cases h
    exact sourced_nil 0

theorem planFuseBatch_mints {ops : List SystemOperation}
    (h : r.planFuseBatch ops = .ok plan) : Mints Q plan := by
  obtain ⟨record, -, h⟩ := bind_eq_ok.mp h
  obtain ⟨firstSlot, -, h⟩ := bind_eq_ok.mp h
  obtain ⟨table, -, h⟩ := bind_eq_ok.mp h
  obtain ⟨eras, -, h⟩ := bind_eq_ok.mp h
  obtain ⟨entries, hentries, h⟩ := bind_eq_ok.mp h
  split at h
  · cases h
  · refine proposalPlan_mints (slabEntries_sourced hentries) ?_ h
    exact Message.prepares_other rfl

theorem planStepProposal_mints {batch : SystemOperation}
    (h : r.planStepProposal batch = .ok plan) : Mints Q plan := by
  unfold planStepProposal at h
  split at h
  · split at h
    · exact planFuseBatch_mints h
    · exact planReconfigure_mints h
  · exact planReconfigure_mints h

theorem planFuse_mints {sender : Nat} {message : Message} {ops : List SystemOperation}
    (h : r.planFuse sender message ops time kind = .ok plan) : Mints Q plan := by
  cases planFuse_cases h with
  | dropped _ hdrop => exact dropPlan_mints hdrop
  | signalled _ hsignal => exact planHigherViewSignal_mints hsignal
  | next _ _ eras current entries last candidate _ hentries _ _ hplan =>
    subst hplan
    refine ⟨fun accepted heq => ?_, .single (Message.prepares_other rfl)⟩
    cases heq
    exact slabEntries_sourced hentries

theorem planPlannedViewChange_mints {sender : Nat} {message : Message}
    (h : r.planPlannedViewChange sender message kind = .ok plan) : Mints Q plan := by
  simp only [planPlannedViewChange] at h
  split at h
  · split at h
    · exact dropPlan_mints h
    · exact dropPlan_mints h
  · split at h
    · exact dropPlan_mints h
    · split at h
      · exact dropPlan_mints h
      · obtain ⟨proof, -, h⟩ := bind_eq_ok.mp h
        obtain ⟨emitted, hemitted, h⟩ := bind_eq_ok.mp h
        have hmints : Mints Q emitted :=
          emitPlan_mints hemitted (.single (Message.prepares_other rfl))
        split at h
        · cases pure_eq_ok.mp h
          exact withFetch_mints hmints _ _ _
        · cases pure_eq_ok.mp h
          exact hmints

theorem planPlannedEvidence_mints {sender : Nat} {message : Message} {evidence : Evidence}
    {proof : EraProof}
    (h : r.planPlannedEvidence sender message evidence proof time kind = .ok plan) :
    Mints Q plan := by
  simp only [planPlannedEvidence] at h
  split at h
  · exact dropPlan_mints h
  · split at h
    · exact dropPlan_mints h
    · split at h
      · exact dropPlan_mints h
      · split at h
        · cases h
        · split at h
          · exact dropPlan_mints h
          · split at h
            · obtain ⟨candidate, hcandidate, h⟩ := bind_eq_ok.mp h
              obtain ⟨proof, -, h⟩ := bind_eq_ok.mp h
              cases pure_eq_ok.mp h
              exact .silent rfl (.sendAll (Message.prepares_other rfl))
            · obtain ⟨emitted, hemitted, h⟩ := bind_eq_ok.mp h
              cases pure_eq_ok.mp h
              exact (emitPlan_mints hemitted .nil).of_eq rfl rfl

/-! ### Transfer -/

theorem chunkCursor_prepares (view : Ballot) (sender accepted : Nat) (onward : Bool) :
    Sending (Message.Prepares Q) (chunkCursor view sender accepted onward).1 := by
  unfold chunkCursor
  split
  · split
    · exact .single (Message.prepares_other rfl)
    · exact .nil
  · exact .nil

theorem installChunk_mints {sender : Nat} {view : Ballot} {entries : List LogEntry}
    {through : Nat} {more : Bool} {folded : FoldedCommit} {mutation : JournalMutation}
    (hmutation : ∀ accepted, mutation ≠ .accept accepted)
    (h : r.installChunk sender view entries through more folded mutation kind = .ok plan) :
    Mints Q plan := by
  obtain ⟨applies, happlies, h⟩ := bind_eq_ok.mp h
  obtain ⟨walkedView, -, h⟩ := bind_eq_ok.mp h
  obtain ⟨applied, -, h⟩ := bind_eq_ok.mp h
  obtain ⟨candidate, -, h⟩ := bind_eq_ok.mp h
  cases pure_eq_ok.mp h
  refine ⟨fun accepted heq => absurd heq (hmutation accepted),
    Sending.append ?_ (chunkCursor_prepares _ _ _ _)⟩
  unfold chunkApplies at happlies
  split at happlies
  · exact .applyRange happlies
  · cases happlies
    exact .nil

theorem planNewState_mints {sender : Nat} {message : Message} {entries : List LogEntry}
    {through committed : Nat} {more : Bool}
    (h : r.planNewState sender message entries through committed more kind = .ok plan) :
    Mints Q plan := by
  cases planNewState_cases h with
  | dropped _ hdrop => exact dropPlan_mints hdrop
  | breached hbreach => exact breachPlan_mints hbreach
  | closed emitted hemit hplan =>
    subst hplan
    exact (emitPlan_mints hemit .nil).of_eq rfl rfl
  | installed record _ _ _ _ _ _ whole hwhole folded _ mutation hverdict hinstall =>
    refine installChunk_mints (fun accepted => ?_) hinstall
    rcases chunkVerdict_install hverdict with ⟨-, rfl⟩ | ⟨-, -, hcut⟩
    · exact (checkSuffix_copies hwhole).1 accepted
    · exact (truncatedMutation_copies hcut).1 accepted

theorem planGetState_mints {sender : Nat} {message : Message} {start : Nat}
    (h : r.planGetState sender message start kind = .ok plan) : Mints Q plan := by
  simp only [planGetState] at h
  split at h
  · exact dropPlan_mints h
  · split at h
    · exact dropPlan_mints h
    · exact dropPlan_mints h
    · exact dropPlan_mints h
    all_goals
      split at h
      · exact dropPlan_mints h
      · exact emitPlan_mints h (.single (Message.prepares_other rfl))

/-! ### Reincarnation and plans -/

theorem missedRangePush_prepares (view : Ballot) (recipient prepared : Nat) :
    Sending (Message.Prepares Q) (r.missedRangePush view recipient prepared).toList := by
  unfold missedRangePush
  simp only
  split
  · exact .nil
  · split
    · exact .nil
    · exact .single (Message.prepares_other rfl)

omit [Journal J] in
/-- The prepare copied is one of the plan's own. -/
theorem establishingPrepare_prepares {effects : List Effect} {message : Message}
    (heffects : Sending (Message.Prepares Q) effects)
    (h : establishingPrepare effects = some message) : message.Prepares Q := by
  induction effects with
  | nil => cases h
  | cons effect rest ih =>
    have hrest : Sending (Message.Prepares Q) rest := fun other hmem =>
      heffects other (List.mem_cons_of_mem _ hmem)
    cases effect with
    | send recipient era other =>
      unfold establishingPrepare at h
      split at h
      · cases h
        exact heffects _ List.mem_cons_self
      · exact ih hrest h
    | _ => exact ih hrest h

omit [Journal J] in
theorem establishingCopy_prepares {effects : List Effect}
    (heffects : Sending (Message.Prepares Q) effects) (recipient era : Nat) :
    Sending (Message.Prepares Q) ((establishingPrepare effects).map fun establishing =>
      Effect.send recipient era establishing).toList := by
  intro effect hmem
  rw [Option.mem_toList, Option.map_eq_some_iff] at hmem
  obtain ⟨message, hmessage, rfl⟩ := hmem
  exact establishingPrepare_prepares heffects hmessage

theorem planReincarnation_mints {sender : Nat} {message : Message}
    (h : r.planReincarnation sender message kind = .ok plan) : Mints Q plan := by
  simp only [planReincarnation] at h
  split at h
  · split at h
    · exact dropPlan_mints h
    · split at h
      · cases h
      · split at h
        · obtain ⟨drop, hdrop, h⟩ := bind_eq_ok.mp h
          cases pure_eq_ok.mp h
          exact (dropPlan_mints hdrop).more rfl rfl (missedRangePush_prepares _ _ _)
        · split at h
          · obtain ⟨proposal, hproposal, h⟩ := bind_eq_ok.mp h
            cases pure_eq_ok.mp h
            have hmints : Mints Q proposal := planReconfigure_mints hproposal
            exact ⟨hmints.accepts, ((missedRangePush_prepares _ _ _).append
              hmints.prepares).append (establishingCopy_prepares hmints.prepares _ _)⟩
          · obtain ⟨drop, hdrop, h⟩ := bind_eq_ok.mp h
            cases pure_eq_ok.mp h
            exact (dropPlan_mints hdrop).more rfl rfl (missedRangePush_prepares _ _ _)
  · exact dropPlan_mints h

theorem planGossipRequest_mints {sender : Nat} {message : Message}
    (h : r.planGossipRequest sender message kind = .ok plan) : Mints Q plan := by
  simp only [planGossipRequest] at h
  split at h
  · split at h
    · exact dropPlan_mints h
    · obtain ⟨drop, hdrop, h⟩ := bind_eq_ok.mp h
      cases pure_eq_ok.mp h
      have hmints : Mints Q drop := dropPlan_mints hdrop
      exact ⟨hmints.accepts, (hmints.prepares.append (missedRangePush_prepares _ _ _)).append
        (.single (Message.prepares_other rfl))⟩
  · exact dropPlan_mints h

theorem planForcedContinuation_mints {planned : Planned}
    (hsome : r.planForcedContinuation = some planned) (h : planned = .ok plan) :
    Mints Q plan := by
  simp only [planForcedContinuation] at hsome
  split at hsome
  · cases hsome
  · split at hsome
    · cases hsome
    · split at hsome
      · split at hsome
        · rename_i emitted hemitted
          rw [← Option.some.inj hsome] at h
          cases h
          exact (emitPlan_mints hemitted .nil).of_eq rfl rfl
        · cases hsome
      · split at hsome
        · rw [← Option.some.inj hsome] at h
          obtain ⟨proposal, hproposal, h⟩ := bind_eq_ok.mp h
          cases pure_eq_ok.mp h
          exact (planReconfigure_mints hproposal).of_eq rfl rfl
        · cases hsome

theorem planReincarnate_mints {old : Nat} (h : r.planReincarnate old kind = .ok plan) :
    Mints Q plan := by
  rcases planReincarnate_ok h with hdrop | ⟨announcement, -, hbody, -, ⟨-, hled⟩ | ⟨-, hsent⟩⟩
  · exact dropPlan_mints hdrop
  · exact planReincarnation_mints hled
  · refine emitPlan_mints hsent (.sendAll fun entry committed heq => ?_)
    rw [hbody] at heq
    cases heq

theorem planSubmitPlan_mints {submitted : Plan}
    (h : r.planSubmitPlan submitted kind = .ok plan) : Mints Q plan := by
  have hanswer : ∀ {verdict : PlanVerdict} {p : PlannedTransition},
      r.adminVerdict verdict kind = .ok p → Mints Q p := fun hp =>
    emitPlan_mints hp (.single trivial)
  simp only [planSubmitPlan] at h
  split at h
  · exact hanswer h
  · split at h
    · exact hanswer h
    · split at h
      · exact hanswer h
      · split at h
        · obtain ⟨proposal, hproposal, h⟩ := bind_eq_ok.mp h
          cases pure_eq_ok.mp h
          exact (planStepProposal_mints hproposal).more rfl rfl (.single trivial)
        · obtain ⟨answer, hanswered, h⟩ := bind_eq_ok.mp h
          cases pure_eq_ok.mp h
          exact (hanswer hanswered).of_eq rfl rfl

theorem planExecutionContinuation_mints {planned : Planned}
    (hsome : r.planExecutionContinuation = some planned) (h : planned = .ok plan) :
    Mints Q plan := by
  simp only [planExecutionContinuation] at hsome
  split at hsome
  · cases hsome
  · split at hsome
    · cases hsome
    · split at hsome
      · rw [← Option.some.inj hsome] at h
        cases h
      · split at hsome
        · rw [← Option.some.inj hsome] at h
          obtain ⟨drop, hdrop, h⟩ := bind_eq_ok.mp h
          cases pure_eq_ok.mp h
          exact (dropPlan_mints hdrop).of_eq rfl rfl
        · split at hsome
          · rw [← Option.some.inj hsome] at h
            obtain ⟨proposal, hproposal, h⟩ := bind_eq_ok.mp h
            cases pure_eq_ok.mp h
            exact (planStepProposal_mints hproposal).of_eq rfl rfl
          · cases hsome

/-! ### Ticks and dispatch -/

theorem planTick_mints (h : r.planTick time = .ok plan) : Mints Q plan := by
  unfold planTick at h
  split at h
  · obtain ⟨candidate, -, h⟩ := bind_eq_ok.mp h
    cases pure_eq_ok.mp h
    exact .silent rfl (.sendAll (Message.prepares_other rfl))
  · split at h
    · split at h
      · cases h
      · exact enterViewChange_mints h
    · split at h
      · rename_i planned hoffer
        simp only [redriveOffer] at hoffer
        split at hoffer
        · cases hoffer
        · split at hoffer
          · split at hoffer
            · rw [← Option.some.inj hoffer] at h
              exact planStartView_mints h
            · cases hoffer
          · cases hoffer
      · split at h
        · rename_i planned hwin
          simp only [redriveWin] at hwin
          split at hwin
          · split at hwin
            · cases hwin
            · split at hwin
              · rw [← Option.some.inj hwin] at h
                exact carryOn_mints h
              · cases hwin
          · cases hwin
        · split at h
          · rename_i planned hfetch
            simp only [refetch] at hfetch
            split at hfetch
            · cases hfetch
            · rw [← Option.some.inj hfetch] at h
              obtain ⟨emitted, hemitted, h⟩ := bind_eq_ok.mp h
              cases pure_eq_ok.mp h
              exact (emitPlan_mints hemitted (.single (Message.prepares_other rfl))).of_eq rfl rfl
          · split at h
            · rename_i planned hforced
              exact planForcedContinuation_mints hforced h
            · split at h
              · rename_i planned hexecution
                exact planExecutionContinuation_mints hexecution h
              · exact emitPlan_mints h .nil

omit [Journal J] in
theorem planCheckpointed_mints {through : Nat} (h : r.planCheckpointed through = .ok plan) :
    Mints Q plan := by
  simp only [planCheckpointed] at h
  split at h
  · cases h
  · split at h
    · exact emitPlan_mints h .nil
    · obtain ⟨candidate, -, h⟩ := bind_eq_ok.mp h
      cases pure_eq_ok.mp h
      exact .silent rfl .nil

theorem planApplied_mints {slot : Nat} (h : r.planApplied slot = .ok plan) : Mints Q plan := by
  obtain ⟨expected, -, h⟩ := bind_eq_ok.mp h
  split at h
  · cases h
  · obtain ⟨applied, -, h⟩ := bind_eq_ok.mp h
    obtain ⟨candidate, -, h⟩ := bind_eq_ok.mp h
    cases pure_eq_ok.mp h
    exact .silent rfl .nil

theorem planBody_mints {sender : Nat} {message : Message}
    (hmessage : ∀ entry ∈ message.entries, entry.Sourced Q)
    (h : r.planBody sender message time kind = .ok plan) : Mints Q plan := by
  unfold planBody at h
  have hwitness : ∀ {p : PlannedTransition}, Mints Q p →
      Mints Q (r.withJoinGossipWitness p sender) := by
    intro p hp
    unfold withJoinGossipWitness
    split
    · exact hp.of_eq rfl rfl
    · exact hp.of_eq rfl rfl
  cases hbody : message.body with
  | prepare entry =>
    have hentry : entry.Sourced Q := by
      refine hmessage entry ?_
      rw [Message.entries, hbody]
      exact List.mem_singleton.mpr rfl
    rw [hbody] at h
    exact planPrepare_mints hentry h
  | prepareOk => rw [hbody] at h; exact planPrepareOk_mints h
  | commit => rw [hbody] at h; exact planCommit_mints h
  | startViewChange => rw [hbody] at h; exact planStartViewChange_mints h
  | doViewChange retained accepted committed suffix evidence proof =>
    rw [hbody] at h
    cases evidence with
    | planned => exact planPlannedEvidence_mints h
    | ordinary => exact planOrdinaryEvidence_mints h
  | startView => rw [hbody] at h; exact planStartView_mints h
  | plannedViewChange => rw [hbody] at h; exact planPlannedViewChange_mints h
  | getState => rw [hbody] at h; exact planGetState_mints h
  | newState => rw [hbody] at h; exact planNewState_mints h
  | reincarnation =>
    rw [hbody] at h
    obtain ⟨p, hp, h⟩ := bind_eq_ok.mp h
    cases pure_eq_ok.mp h
    exact hwitness (planReincarnation_mints hp)
  | gossipRequest =>
    rw [hbody] at h
    obtain ⟨p, hp, h⟩ := bind_eq_ok.mp h
    cases pure_eq_ok.mp h
    exact hwitness (planGossipRequest_mints hp)
  | fuse => rw [hbody] at h; exact planFuse_mints h
  | fuseOk => rw [hbody] at h; exact planFuseOk_mints h
  | commitBatch => rw [hbody] at h; exact dropPlan_mints h

theorem planPeer_mints {sender : Nat} {message : Message}
    (hmessage : ∀ entry ∈ message.entries, entry.Sourced Q)
    (h : r.planPeer sender message time kind = .ok plan) : Mints Q plan := by
  unfold planPeer at h
  split at h
  · exact dropPlan_mints h
  · obtain ⟨p, hp, h⟩ := bind_eq_ok.mp h
    cases pure_eq_ok.mp h
    have hmints : Mints Q p := planBody_mints hmessage hp
    split
    · exact hmints.of_eq rfl rfl
    · exact hmints

/-- **What a plan of a fresh input mints** it was offered. -/
theorem plan_mints {input : TimedInput} (hsource : r.Brings Q input.event)
    (hfresh : ∀ revision result, input.event ≠ .stabilityConfirmation revision result)
    (h : r.plan input = .ok plan) : Mints Q plan := by
  unfold Replica.plan at h
  split at h
  · cases h
  · simp only at h
    split at h
    · cases h
    · split at h
      · rename_i revision result hevent
        exact absurd hevent (hfresh revision result)
      · exact planTick_mints (refuseIfParked_ok h).2
      · rename_i operation hevent
        rw [hevent] at hsource
        exact planPropose_mints hsource (refuseIfParked_ok h).2
      · rename_i sender message hevent
        rw [hevent] at hsource
        exact planPeer_mints hsource (refuseIfParked_ok h).2
      · exact planApplied_mints (refuseIfParked_ok h).2
      · exact planAdminForceView_mints (refuseIfParked_ok h).2
      · exact planCheckpointed_mints (refuseIfParked_ok h).2
      · exact planReconfigure_mints (refuseIfParked_ok h).2
      · exact planReincarnate_mints (refuseIfParked_ok h).2
      · exact planSubmitPlan_mints (refuseIfParked_ok h).2

end Replica

end UvrrCore
