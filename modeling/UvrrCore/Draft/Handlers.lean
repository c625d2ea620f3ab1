import UvrrCore.Draft.Views

/-!
# Every handler drafts

One lemma for each handler: the plan it answers a fresh input with is a draft. A message that is
dropped, a proposal and a vote that decides nothing move no frontier; a commit learned on any
path folds the range it covers.
-/

namespace UvrrCore

namespace Replica

variable {J : Type} [Journal J] {r : Replica J} {given : Given} {kind : InputKind} {time : Nat}
  {plan : PlannedTransition}

/-! ### Proposing -/

/-- One entry at a slot is a run from there. -/
theorem contiguousFrom_singleton {entry : LogEntry} {slot : Nat} (h : entry.slot = slot) :
    ContiguousFrom slot [entry] := ⟨h, trivial⟩

theorem proposalPlan_drafted {entries : List LogEntry} {last : LogEntry} {recipients : List Nat}
    {era : Nat} {message : Message} {planned : Update PlannedOverlap}
    (hrun : ContiguousFrom (r.progress.accepted + 1) entries)
    (hlast : entries.getLast? = some last) (hwidth : entries.length ≤ given.width)
    (h : r.proposalPlan entries last.slot recipients era message planned kind = .ok plan) :
    r.Drafted given plan := by
  obtain ⟨candidate, hcandidate, h⟩ := bind_eq_ok.mp h
  cases pure_eq_ok.mp h
  have hdata := candidateWith_ok hcandidate
  refine Drafted.withBookkeeping ?_ (fun attempt hset => by cases hset) fun _ => nofun
  exact drafted_append (by rw [hdata]; rfl) (by rw [hdata]; rfl) (by rw [hdata]; rfl) hrun hlast
    hwidth (by rw [hdata]; rfl) (by rw [hdata]; exact id) (sendAll_isApply _ _ _)

omit [Journal J] in
theorem nextFreeSlot_ok {slot : Nat} (h : r.nextFreeSlot = .ok slot) :
    slot = r.progress.accepted + 1 := by
  unfold nextFreeSlot at h
  split at h
  · rename_i next hnext
    cases h
    exact (Slot.next_eq_some.mp hnext).2
  · cases h

/-- Only a node that serves in the era established last proposes. -/
theorem reconfigureGates_era {op : SystemOperation} {slot : Nat} {table : EraTable}
    (h : r.reconfigureGates op slot = .ok table) :
    r.progress.config.current.era = r.progress.current.era := by
  unfold reconfigureGates at h
  dsimp only at h
  split at h
  · cases h
  · rename_i hera
    exact not_not.mp hera

theorem planPropose_drafted {operation : Operation} (hwidth : 1 ≤ given.width)
    (h : r.planPropose operation = .ok plan) : r.Drafted given plan := by
  obtain ⟨record, -, h⟩ := bind_eq_ok.mp h
  obtain ⟨slot, hslot, h⟩ := bind_eq_ok.mp h
  exact proposalPlan_drafted (contiguousFrom_singleton (nextFreeSlot_ok hslot)) rfl hwidth h

theorem planReconfigure_drafted {op : SystemOperation} {pivot : Option Pivot}
    (hwidth : 1 ≤ given.width) (h : r.planReconfigure op pivot = .ok plan) : r.Drafted given plan := by
  obtain ⟨record, -, h⟩ := bind_eq_ok.mp h
  obtain ⟨slot, hslot, h⟩ := bind_eq_ok.mp h
  obtain ⟨table, -, h⟩ := bind_eq_ok.mp h
  obtain ⟨⟨recipients, planned⟩, -, h⟩ := bind_eq_ok.mp h
  exact proposalPlan_drafted (contiguousFrom_singleton (nextFreeSlot_ok hslot)) rfl hwidth h

omit [Journal J] in
/-- The entries of a slab lie at consecutive slots. -/
theorem slabEntries_run {slot : Nat} {ops : List SystemOperation} {eras : List Nat}
    {entries : List LogEntry} (h : slabEntries slot ops eras = .ok entries) :
    ContiguousFrom slot entries := by
  induction ops generalizing slot eras entries with
  | nil =>
    cases h
    trivial
  | cons op ops ih =>
    cases eras with
    | nil =>
      cases h
      trivial
    | cons era eras =>
      simp only [slabEntries] at h
      split at h
      · obtain ⟨rest, hrest, h⟩ := bind_eq_ok.mp h
        cases pure_eq_ok.mp h
        exact ⟨rfl, ih hrest⟩
      · cases h

omit [Journal J] in
theorem slabEntries_length {slot : Nat} {ops : List SystemOperation} {eras : List Nat}
    {entries : List LogEntry} (h : slabEntries slot ops eras = .ok entries) :
    entries.length ≤ ops.length := by
  induction ops generalizing slot eras entries with
  | nil =>
    cases h
    exact Nat.le_refl _
  | cons op ops ih =>
    cases eras with
    | nil =>
      cases h
      exact Nat.zero_le _
    | cons era eras =>
      simp only [slabEntries] at h
      split at h
      · obtain ⟨rest, hrest, h⟩ := bind_eq_ok.mp h
        cases pure_eq_ok.mp h
        exact Nat.succ_le_succ (ih hrest)
      · cases h

theorem planFuseBatch_drafted {ops : List SystemOperation} (hwidth : ops.length ≤ given.width)
    (h : r.planFuseBatch ops = .ok plan) : r.Drafted given plan := by
  obtain ⟨record, -, h⟩ := bind_eq_ok.mp h
  obtain ⟨firstSlot, hslot, h⟩ := bind_eq_ok.mp h
  obtain ⟨table, -, h⟩ := bind_eq_ok.mp h
  obtain ⟨eras, -, h⟩ := bind_eq_ok.mp h
  obtain ⟨entries, hentries, h⟩ := bind_eq_ok.mp h
  split at h
  · cases h
  · rename_i last hlast
    exact proposalPlan_drafted (nextFreeSlot_ok hslot ▸ slabEntries_run hentries) hlast
      ((slabEntries_length hentries).trans hwidth) h

theorem planStepProposal_drafted {batch : SystemOperation} (hwidth : fuseMaxOps ≤ given.width)
    (h : r.planStepProposal batch = .ok plan) : r.Drafted given plan := by
  have hone : 1 ≤ given.width := (show 1 ≤ fuseMaxOps by decide).trans hwidth
  unfold planStepProposal at h
  split at h
  · split at h
    · rename_i hpacks
      exact planFuseBatch_drafted (hpacks.2.trans hwidth) h
    · exact planReconfigure_drafted hone h
  · exact planReconfigure_drafted hone h

/-! ### Accepting and committing -/

/-- A commit learned from the published journal, with what it releases besides. -/
theorem journalCommit_drafted {through : Nat} {folded : FoldedCommit} {status : Status}
    {applied : Nat} {config : EraTable} {candidate : Progress} {applies effects : List Effect}
    (hfold : r.foldCommitted [] r.progress.committed through true = .ok folded)
    (hwalk : r.appliedWalk [] r.progress.applied folded.covered = .ok applied)
    (hcandidate : r.candidateWith status r.progress.accepted folded.covered applied config
      folded.bump = .ok candidate)
    (hreplays : status = .replaying → r.progress.status = .replaying)
    (hconfig : folded.config.UpToPivot config)
    (happlies : r.applyEffects r.progress.committed folded.covered = .ok applies)
    (heffects : effects.filter Effect.isApply = applies) :
    r.Drafted given (r.candidatePlan candidate .none effects kind false) := by
  have hdata := candidateWith_ok hcandidate
  refine drafted_commit [] hfold (by rw [hdata]; rfl) (by rw [hdata]; exact hwalk)
    (by rw [hdata]; exact hconfig) (.inl rfl) happlies heffects (by rw [hdata]; exact hreplays) ?_
  rw [show candidate.accepted = r.progress.accepted from by rw [hdata]; rfl]
  exact .kept rfl

omit [Journal J] in
theorem adoptedStatus_replays {view : Ballot} (h : r.adoptedStatus view = .replaying) :
    r.progress.status = .replaying := by
  rcases r.adoptedStatus_cases view with hnormal | hsame
  · rw [hnormal] at h
    cases h
  · exact hsame.symm.trans h

theorem filter_prepareOk {view : Ballot} {sender slot : Nat} {applies : List Effect}
    (happlies : applies.filter Effect.isApply = applies) :
    (prepareOk view sender slot :: applies).filter Effect.isApply = applies := by
  rw [List.filter_cons_of_neg (by simp [prepareOk, Effect.isApply])]
  exact happlies

theorem planHeldPrepare_drafted {sender : Nat} {entry : LogEntry} {piggybacked : Nat}
    {status : Status} (hreplays : status = .replaying → r.progress.status = .replaying)
    (h : r.planHeldPrepare sender entry piggybacked status kind = .ok plan) :
    r.Drafted given plan := by
  simp only [planHeldPrepare] at h
  split at h
  · cases h
  · split at h
    · exact dropPlan_drafted h
    · split at h
      · cases h
      · exact dropPlan_drafted h
      · exact breachPlan_drafted h
      · rename_i folded hfold
        obtain ⟨applied, hwalk, h⟩ := bind_eq_ok.mp h
        obtain ⟨candidate, hcandidate, h⟩ := bind_eq_ok.mp h
        obtain ⟨applies, happlies, h⟩ := bind_eq_ok.mp h
        cases pure_eq_ok.mp h
        exact journalCommit_drafted hfold hwalk hcandidate hreplays (.inl rfl) happlies
          (filter_prepareOk (filter_applyRange happlies))

/-- The accepted entry is the overlay of the fold; the operations are read without it. -/
theorem planNextPrepare_drafted {sender : Nat} {view : Ballot} {entry : LogEntry}
    {piggybacked : Nat} {status : Status} (hslot : entry.slot = r.progress.accepted + 1)
    (hwidth : 1 ≤ given.width)
    (hreplays : status = .replaying → r.progress.status = .replaying)
    (h : r.planNextPrepare sender view entry piggybacked status kind = .ok plan) :
    r.Drafted given plan := by
  simp only [planNextPrepare] at h
  split at h
  · cases h
  · exact dropPlan_drafted h
  · split at h
    · exact dropPlan_drafted h
    · exact breachPlan_drafted h
  · rename_i folded hfold
    obtain ⟨refusal, -, h⟩ := bind_eq_ok.mp h
    split at h
    · exact dropPlan_drafted h
    · split at h
      · exact dropPlan_drafted h
      · obtain ⟨applied, hwalk, h⟩ := bind_eq_ok.mp h
        obtain ⟨candidate, hcandidate, h⟩ := bind_eq_ok.mp h
        obtain ⟨applies, happlies, h⟩ := bind_eq_ok.mp h
        cases pure_eq_ok.mp h
        have hdata := candidateWith_ok hcandidate
        refine drafted_commit [] hfold (by rw [hdata]; rfl) (by rw [hdata]; exact hwalk)
          (.inl (by rw [hdata]; rfl)) (.inr ⟨rfl, _, rfl⟩) happlies
          (filter_prepareOk (filter_applyRange happlies)) (by rw [hdata]; exact hreplays) ?_
        rw [show candidate.accepted = entry.slot from by rw [hdata]; rfl]
        exact .appended (.inr rfl) (contiguousFrom_singleton hslot) rfl hwidth

variable (hgiven : r.Reported given.shape)

include hgiven

theorem planHigherViewSignal_drafted {sender : Nat} {view : Ballot}
    (h : r.planHigherViewSignal sender view time kind = .ok plan) : r.Drafted given plan := by
  obtain ⟨entered, hentered, h⟩ := bind_eq_ok.mp h
  have hdrafted := enterViewChange_drafted hgiven hentered
  split at h
  · cases pure_eq_ok.mp h
    exact hdrafted.withFetch _ _ _
  · cases pure_eq_ok.mp h
    exact hdrafted

theorem planPrepare_drafted {sender : Nat} {message : Message} {entry : LogEntry}
    {piggybacked : Nat} (hwidth : 1 ≤ given.width)
    (h : r.planPrepare sender message entry piggybacked time kind = .ok plan) :
    r.Drafted given plan := by
  cases planPrepare_cases h with
  | dropped _ hdrop => exact dropPlan_drafted hdrop
  | signalled _ hsignal => exact planHigherViewSignal_drafted hgiven hsignal
  | held _ _ _ hheld => exact planHeldPrepare_drafted adoptedStatus_replays hheld
  | gap next drop hdrop hplan =>
    subst hplan
    exact (dropPlan_drafted hdrop).withFetch _ _ _
  | next _ _ hslot hnext =>
    exact planNextPrepare_drafted hslot hwidth adoptedStatus_replays hnext

theorem planCommit_drafted {sender : Nat} {message : Message} {frontier : Nat}
    (h : r.planCommit sender message frontier time kind = .ok plan) : r.Drafted given plan := by
  cases planCommit_cases h with
  | dropped _ hdrop => exact dropPlan_drafted hdrop
  | breached hbreach => exact breachPlan_drafted hbreach
  | signalled _ hsignal => exact planHigherViewSignal_drafted hgiven hsignal
  | steady hemit => exact emitPlan_drafted hemit fun _ hmem => by cases hmem
  | learned _ _ folded applied candidate applies hfold hwalk hcandidate happlies hplan =>
    subst hplan
    exact journalCommit_drafted hfold hwalk hcandidate adoptedStatus_replays (.inl rfl) happlies
      (filter_applyRange happlies)

omit hgiven

/-! ### The quorum of a proposal -/

theorem commitBatchEffects_isApply (through rounds slot : Nat) :
    ∀ effect ∈ r.commitBatchEffects through rounds slot, effect.isApply = false := by
  induction rounds generalizing slot with
  | zero => simp [commitBatchEffects]
  | succ rounds ih =>
    intro effect hmem
    simp only [commitBatchEffects] at hmem
    split at hmem
    · cases hmem
    · split at hmem
      · cases hmem
      · split at hmem
        · exact ih _ effect hmem
        · rcases List.mem_append.mp hmem with hmem | hmem
          · split at hmem
            · exact sendAll_isApply _ _ _ effect hmem
            · cases hmem
          · exact ih _ effect hmem

omit [Journal J] in
/-- A solicitation puts at most a pivot on the table and applies nothing. -/
theorem overlapSolicitation_drafts {config config' : EraTable} {covered : Nat}
    {effects : List Effect} {planned : Update PlannedOverlap}
    (h : r.overlapSolicitation config covered = .ok (config', effects, planned)) :
    config.UpToPivot config' ∧ ∀ effect ∈ effects, effect.isApply = false := by
  unfold overlapSolicitation at h
  split at h
  · cases h
    exact ⟨.inl rfl, fun _ hmem => by cases hmem⟩
  · split at h
    · cases h
      exact ⟨.inl rfl, fun _ hmem => by cases hmem⟩
    · split at h
      · cases h
      · rename_i marked hmarked
        cases h
        exact ⟨.inr ⟨_, hmarked⟩, sendAll_isApply _ _ _⟩

theorem finishCommitQuorum_drafted {committed : Nat} {oks : List (Nat × Nat)}
    (h : r.finishCommitQuorum committed oks kind = .ok plan) : r.Drafted given plan := by
  simp only [finishCommitQuorum] at h
  split at h
  · obtain ⟨emitted, hemitted, h⟩ := bind_eq_ok.mp h
    cases pure_eq_ok.mp h
    exact (emitPlan_drafted hemitted fun _ hmem => by cases hmem).withBookkeeping
      (fun attempt hset => by cases hset) fun _ => nofun
  · split at h
    · cases h
    · exact dropPlan_drafted h
    · exact breachPlan_drafted h
    · rename_i folded hfold
      obtain ⟨⟨config, solicitation, planned⟩, hsolicit, h⟩ := bind_eq_ok.mp h
      obtain ⟨applied, hwalk, h⟩ := bind_eq_ok.mp h
      obtain ⟨candidate, hcandidate, h⟩ := bind_eq_ok.mp h
      obtain ⟨applies, happlies, h⟩ := bind_eq_ok.mp h
      cases pure_eq_ok.mp h
      obtain ⟨hpivot, hsilent⟩ := overlapSolicitation_drafts hsolicit
      refine Drafted.withBookkeeping ?_ (fun attempt hset => by cases hset) fun _ => nofun
      refine journalCommit_drafted hfold hwalk hcandidate (fun hset => by cases hset) hpivot happlies ?_
      rw [List.filter_append, List.filter_append, List.filter_append, filter_applyRange happlies,
        broadcastCommit, filter_silent (sendAll_isApply _ _ _),
        filter_silent (commitBatchEffects_isApply _ _ _), filter_silent hsilent, List.append_nil,
        List.append_nil, List.append_nil]

theorem countVote_drafted {sender slot : Nat} {unknown learner foreign duplicate : Diagnostic}
    (h : r.countVote sender slot unknown learner foreign duplicate kind = .ok plan) :
    r.Drafted given plan := by
  simp only [countVote] at h
  split at h
  · exact dropPlan_drafted h
  · obtain ⟨finished, hfinished, h⟩ := bind_eq_ok.mp h
    cases pure_eq_ok.mp h
    exact (finishCommitQuorum_drafted hfinished).withDiagnostic _
  · split at h
    · exact dropPlan_drafted h
    · split at h
      · exact dropPlan_drafted h
      · exact finishCommitQuorum_drafted h

theorem planPrepareOk_drafted {sender : Nat} {message : Message}
    (h : r.planPrepareOk sender message kind = .ok plan) : r.Drafted given plan := by
  simp only [planPrepareOk] at h
  split at h
  · exact dropPlan_drafted h
  · split at h
    · exact dropPlan_drafted h
    · exact countVote_drafted h

theorem planFuseOk_drafted {sender : Nat} {message : Message}
    (h : r.planFuseOk sender message kind = .ok plan) : r.Drafted given plan := by
  simp only [planFuseOk] at h
  split at h
  · exact dropPlan_drafted h
  · split at h
    · exact dropPlan_drafted h
    · exact countVote_drafted h

end Replica

end UvrrCore
