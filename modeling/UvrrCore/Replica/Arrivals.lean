import UvrrCore.Replica.Spec

/-!
# What an arriving message is planned as

The handlers of a `Prepare`, a commit frontier, an announced view, a fused envelope and a chunk
each run through a ladder of gates before they do anything. One case type for each names what is
left behind the gates, and one lemma reads it off the handler: the proofs about these messages
split the case and do not walk the ladder again.
-/

namespace UvrrCore

namespace Replica

variable {J : Type} {r : Replica J} {sender : Nat} {message : Message} {time : Nat}
  {kind : InputKind} {plan : PlannedTransition}

/-- A replica past the gate of an ordinary message is in no view change. -/
theorem serving_or_boot (h : ¬(r.progress.status ≠ .normal ∧ r.bootFenced = false)) :
    r.progress.status ≠ .viewChange := by
  intro hfenced
  refine h ⟨by rw [hfenced]; decide, ?_⟩
  unfold bootFenced
  rw [hfenced]
  rfl

variable [Journal J]

/-! ### Accepting -/

inductive PrepareCase (r : Replica J) (sender : Nat) (message : Message) (entry : LogEntry)
    (piggybacked time : Nat) (kind : InputKind) (plan : PlannedTransition) : Prop
  | dropped (diagnostic : Diagnostic) (hdrop : r.dropPlan diagnostic kind = .ok plan)
      (hnamed : diagnostic ≠ .none)
  | signalled (hahead : r.progress.current < message.header.view)
      (hsignal : r.planHigherViewSignal sender message.header.view time kind = .ok plan)
  /-- The slot is held: the entry is acknowledged again. -/
  | held (hview : message.header.view = r.progress.current)
      (hserving : r.progress.status ≠ .viewChange) (hslot : entry.slot ≤ r.progress.accepted)
      (hheld : r.planHeldPrepare sender entry piggybacked (r.adoptedStatus message.header.view)
        kind = .ok plan)
  /-- A slot in between is missing and is asked for. -/
  | gap (next : Nat) (drop : PlannedTransition)
      (hdrop : r.dropPlan (.gapDetected next entry.slot) kind = .ok drop)
      (hplan : plan = drop.withFetch (fetch r.progress.current sender next))
  | next (hview : message.header.view = r.progress.current)
      (hserving : r.progress.status ≠ .viewChange) (hslot : entry.slot = r.progress.accepted + 1)
      (hnext : r.planNextPrepare sender message.header.view entry piggybacked
        (r.adoptedStatus message.header.view) kind = .ok plan)

theorem planPrepare_cases {entry : LogEntry} {piggybacked : Nat}
    (h : r.planPrepare sender message entry piggybacked time kind = .ok plan) :
    r.PrepareCase sender message entry piggybacked time kind plan := by
  simp only [planPrepare] at h
  split at h
  · exact .dropped _ h nofun
  · split at h
    · exact .dropped _ h nofun
    · split at h
      · rename_i hahead
        exact .signalled hahead.1 h
      · split at h
        · exact .dropped _ h nofun
        · rename_i hview
          rw [not_not] at hview
          split at h
          · exact .dropped _ h nofun
          · rename_i hgate
            have hserving := serving_or_boot hgate
            split at h
            · exact .dropped _ h nofun
            · split at h
              · exact .dropped _ h nofun
              · split at h
                · rename_i hslot
                  exact .held hview hserving hslot h
                · split at h
                  · cases h
                  · rename_i next hnext
                    split at h
                    · obtain ⟨drop, hdrop, h⟩ := bind_eq_ok.mp h
                      cases pure_eq_ok.mp h
                      exact .gap next drop hdrop rfl
                    · rename_i hslot
                      rw [not_not] at hslot
                      exact .next hview hserving (hslot.trans (Slot.next_eq_some.mp hnext).2) h

/-! ### Learning -/

inductive CommitCase (r : Replica J) (sender : Nat) (message : Message) (frontier time : Nat)
    (kind : InputKind) (plan : PlannedTransition) : Prop
  | dropped (diagnostic : Diagnostic) (hdrop : r.dropPlan diagnostic kind = .ok plan)
      (hnamed : diagnostic ≠ .none)
  | breached (hbreach : r.breachPlan kind = .ok plan)
  | signalled (hahead : r.progress.current < message.header.view)
      (hsignal : r.planHigherViewSignal sender message.header.view time kind = .ok plan)
  /-- The frontier is known already. -/
  | steady (hemit : r.emitPlan [] kind = .ok plan)
      (hknown : max r.progress.committed (min frontier r.progress.accepted) =
        r.progress.committed)
  | learned (hview : message.header.view = r.progress.current)
      (hserving : r.progress.status ≠ .viewChange) (folded : FoldedCommit) (applied : Nat)
      (candidate : Progress) (applies : List Effect)
      (hfold : r.foldCommitted [] r.progress.committed
        (max r.progress.committed (min frontier r.progress.accepted)) true = .ok folded)
      (hwalk : r.appliedWalk [] r.progress.applied folded.covered = .ok applied)
      (hcandidate : r.candidateWith (r.adoptedStatus message.header.view) r.progress.accepted
        folded.covered applied folded.config folded.bump = .ok candidate)
      (happlies : r.applyEffects r.progress.committed folded.covered = .ok applies)
      (hplan : plan = r.candidatePlan candidate .none applies kind false)

theorem planCommit_cases {frontier : Nat}
    (h : r.planCommit sender message frontier time kind = .ok plan) :
    r.CommitCase sender message frontier time kind plan := by
  simp only [planCommit] at h
  split at h
  · exact .dropped _ h nofun
  · split at h
    · exact .dropped _ h nofun
    · split at h
      · rename_i hahead
        exact .signalled hahead.1 h
      · split at h
        · exact .dropped _ h nofun
        · rename_i hview
          rw [not_not] at hview
          split at h
          · exact .dropped _ h nofun
          · rename_i hgate
            have hserving := serving_or_boot hgate
            split at h
            · rename_i hsame
              exact .steady h hsame.1
            · split at h
              · cases h
              · exact .dropped _ h nofun
              · exact .breached h
              · rename_i folded hfold
                obtain ⟨applied, hwalk, h⟩ := bind_eq_ok.mp h
                obtain ⟨candidate, hcandidate, h⟩ := bind_eq_ok.mp h
                obtain ⟨applies, happlies, h⟩ := bind_eq_ok.mp h
                exact .learned hview hserving folded applied candidate applies hfold hwalk
                  hcandidate happlies (pure_eq_ok.mp h).symm

/-! ### Announced views -/

inductive StartViewCase (r : Replica J) (sender : Nat) (message : Message)
    (suffix : List LogEntry) (accepted committed : Nat) (proof : EraProof) (time : Nat)
    (kind : InputKind) (plan : PlannedTransition) : Prop
  | unevaluable (hrecord : r.progress.config.record message.header.view.era = none)
      (hoffer : r.planUnevaluableOffer sender message proof kind = .ok plan)
  | dropped (diagnostic : Diagnostic) (hdrop : r.dropPlan diagnostic kind = .ok plan)
  | breached (hbreach : r.breachPlan kind = .ok plan)
  /-- The offer stands on entries that are missing: it is retained, and they are asked for. -/
  | gap (expected got : Nat) (drop : PlannedTransition)
      (hdrop : r.dropPlan (.gapDetected expected got) kind = .ok drop)
      (hplan : plan = (drop.withFetch (fetch message.header.view sender expected)).withStalledOffer
        sender message)
  | installed (record : EraRecord)
      (hrecord : r.progress.config.record message.header.view.era = some record)
      (hprimary : r.primaryOf message.header.view = some sender)
      (hformed : ¬(message.header.slot ≠ accepted ∨ accepted < committed ∨
        suffixShapeOk suffix accepted = false ∨ eraProofOk record proof = false))
      (hadopts : r.progress.current < message.header.view ∨
        (message.header.view = r.progress.current ∧ r.progress.status = .viewChange))
      (hahead : ¬(committed < r.progress.committed ∨ accepted < r.progress.committed))
      (mutation : JournalMutation)
      (hcheck : r.checkSuffix suffix accepted committed r.progress.checkpoint =
        .install mutation)
      (applied : Nat)
      (hwalk : r.appliedWalk suffix r.progress.applied committed = .ok applied)
      (folded : FoldedCommit)
      (hfold : r.foldCommitted suffix r.progress.committed committed false = .ok folded)
      (candidate : Progress)
      (hcandidate : r.installCandidate message.header.view accepted committed applied
        folded.config = .ok candidate)
      (effects : List Effect)
      (happlies : r.applyEffectsMerged suffix r.progress.committed committed = .ok effects)
      (hplan : plan = (r.candidatePlan candidate mutation effects kind false).withBookkeeping
        { viewChange := .clear, stalled := .clear, planned := .clear, activity := some time })

theorem planStartView_cases {suffix : List LogEntry} {accepted committed : Nat}
    {proof : EraProof}
    (h : r.planStartView sender message suffix accepted committed proof time kind = .ok plan) :
    r.StartViewCase sender message suffix accepted committed proof time kind plan := by
  simp only [planStartView] at h
  split at h
  · rename_i hrecord
    exact .unevaluable hrecord h
  · rename_i record hrecord
    split at h
    · exact .dropped _ h
    · rename_i hprimary
      split at h
      · exact .dropped _ h
      · rename_i hformed
        split at h
        · exact .dropped _ h
        · rename_i hadopts
          split at h
          · exact .dropped _ h
          · rename_i hahead
            split at h
            · obtain ⟨drop, hdrop, h⟩ := bind_eq_ok.mp h
              exact .gap _ _ drop hdrop (pure_eq_ok.mp h).symm
            · exact .breached h
            · rename_i mutation hcheck
              obtain ⟨applied, hwalk, h⟩ := bind_eq_ok.mp h
              split at h
              · cases h
              · exact .dropped _ h
              · exact .breached h
              · rename_i folded hfold
                obtain ⟨candidate, hcandidate, h⟩ := bind_eq_ok.mp h
                obtain ⟨effects, happlies, h⟩ := bind_eq_ok.mp h
                exact .installed record hrecord (not_not.mp hprimary) hformed
                  (not_not.mp hadopts) hahead mutation hcheck applied hwalk folded hfold
                  candidate hcandidate effects happlies (pure_eq_ok.mp h).symm

/-! ### Fused envelopes -/

inductive FuseCase (r : Replica J) (sender : Nat) (message : Message)
    (ops : List SystemOperation) (time : Nat) (kind : InputKind) (plan : PlannedTransition) : Prop
  | dropped (diagnostic : Diagnostic) (hdrop : r.dropPlan diagnostic kind = .ok plan)
  | signalled (hahead : r.progress.current < message.header.view)
      (hsignal : r.planHigherViewSignal sender message.header.view time kind = .ok plan)
  | next (hview : message.header.view = r.progress.current)
      (hserving : r.progress.status ≠ .viewChange) (eras : List Nat) (current : Configuration)
      (entries : List LogEntry) (last : LogEntry) (candidate : Progress)
      (hfold : r.progress.config.current.config.foldSlots ops = .ok (eras, current))
      (hslab : slabEntries (r.progress.accepted + 1) ops eras = .ok entries)
      (hlast : entries.getLast? = some last)
      (hcandidate : r.candidateWith (r.adoptedStatus message.header.view) last.slot
        r.progress.committed r.progress.applied r.progress.config none = .ok candidate)
      (hplan : plan = r.candidatePlan candidate (.accept entries)
        [.send sender message.header.view.era
          { header := { view := r.progress.current, slot := last.slot }
            body := .fuseOk (entries.map LogEntry.slot) }] kind false)

theorem planFuse_cases {ops : List SystemOperation}
    (h : r.planFuse sender message ops time kind = .ok plan) :
    r.FuseCase sender message ops time kind plan := by
  simp only [planFuse] at h
  split at h
  · exact .dropped _ h
  · split at h
    · exact .dropped _ h
    · split at h
      · exact .dropped _ h
      · split at h
        · rename_i hahead
          exact .signalled hahead.1 h
        · split at h
          · exact .dropped _ h
          · rename_i hgate
            obtain ⟨hview, hgate⟩ := not_not.mp hgate
            have hserving : r.progress.status ≠ .viewChange :=
              serving_or_boot fun hclosed => by simp [hclosed] at hgate
            split at h
            · cases h
            · rename_i firstSlot hfirst
              split at h
              · exact .dropped _ h
              · split at h
                · cases h
                · exact .dropped _ h
                · rename_i eras current hfold
                  obtain ⟨entries, hslab, h⟩ := bind_eq_ok.mp h
                  rw [(Slot.next_eq_some.mp hfirst).2] at hslab
                  split at h
                  · cases h
                  · rename_i last hlast
                    obtain ⟨candidate, hcandidate, h⟩ := bind_eq_ok.mp h
                    exact .next hview hserving eras current entries last candidate hfold hslab
                      hlast hcandidate (pure_eq_ok.mp h).symm

/-! ### Transferred chunks -/

/-- What a chunk journals once its fold is done: all of it, or at a boot fence the part covered. -/
def chunkVerdict (r : Replica J) (view : Ballot) (entries : List LogEntry)
    (through committed covered : Nat) (whole : JournalMutation) : SuffixCheck :=
  if r.bootAcquisition view && decide (covered < through) then
    r.truncatedMutation entries covered committed
  else .install whole

theorem chunkVerdict_install {view : Ballot} {entries : List LogEntry}
    {through committed covered : Nat} {whole mutation : JournalMutation}
    (h : r.chunkVerdict view entries through committed covered whole = .install mutation) :
    (¬(r.bootAcquisition view = true ∧ covered < through) ∧ mutation = whole) ∨
      (r.bootAcquisition view = true ∧ covered < through ∧
        r.truncatedMutation entries covered committed = .install mutation) := by
  unfold chunkVerdict at h
  split at h
  · rename_i hshort
    rw [Bool.and_eq_true, decide_eq_true_eq] at hshort
    exact .inr ⟨hshort.1, hshort.2, h⟩
  · rename_i hwhole
    rw [Bool.and_eq_true, decide_eq_true_eq] at hwhole
    cases h
    exact .inl ⟨hwhole, rfl⟩

inductive ChunkCase (r : Replica J) (sender : Nat) (message : Message) (entries : List LogEntry)
    (through committed : Nat) (more : Bool) (kind : InputKind) (plan : PlannedTransition) : Prop
  | dropped (diagnostic : Diagnostic) (hdrop : r.dropPlan diagnostic kind = .ok plan)
  | breached (hbreach : r.breachPlan kind = .ok plan)
  /-- Held already, and the last of its fetch. -/
  | closed (emitted : PlannedTransition) (hemit : r.emitPlan [] kind = .ok emitted)
      (hplan : plan = emitted.withBookkeeping { transfer := .clear })
  | installed (record : EraRecord)
      (hrecord : r.progress.config.record message.header.view.era = some record)
      (hmember : (record.config.weightOf sender).isNone = false)
      (hformed : ¬(message.header.slot ≠ through ∨ (more = false ∧ through < committed) ∨
        suffixShapeOk entries through = false ∨ (entries = [] ∧ more = true)))
      (hqualified : r.chunkQualified sender message.header.view = true)
      (hcurrent : ¬committed < r.progress.committed) (hahead : r.progress.accepted < through)
      (whole : JournalMutation)
      (hwhole : r.checkSuffix entries through committed Slot.none = .install whole)
      (folded : FoldedCommit)
      (hfold : r.foldCommitted entries r.progress.committed
        (r.chunkCommit message.header.view committed (max r.progress.accepted through)) true =
          .ok folded)
      (mutation : JournalMutation)
      (hverdict : r.chunkVerdict message.header.view entries through committed folded.covered
        whole = .install mutation)
      (hinstall : r.installChunk sender message.header.view entries through more folded mutation
        kind = .ok plan)

theorem planNewState_cases {entries : List LogEntry} {through committed : Nat} {more : Bool}
    (h : r.planNewState sender message entries through committed more kind = .ok plan) :
    r.ChunkCase sender message entries through committed more kind plan := by
  simp only [planNewState] at h
  split at h
  · exact .dropped _ h
  · rename_i record hrecord
    split at h
    · exact .dropped _ h
    · rename_i hmember
      split at h
      · exact .dropped _ h
      · rename_i hformed
        split at h
        · exact .dropped _ h
        · rename_i hqualified
          split at h
          · exact .dropped _ h
          · rename_i hcurrent
            split at h
            · split at h
              · exact .dropped _ h
              · obtain ⟨emitted, hemit, h⟩ := bind_eq_ok.mp h
                exact .closed emitted hemit (pure_eq_ok.mp h).symm
            · rename_i hahead
              split at h
              · exact .dropped _ h
              · exact .breached h
              · rename_i whole hwhole
                split at h
                · cases h
                · exact .dropped _ h
                · exact .breached h
                · rename_i folded hfold
                  split at h
                  · exact .dropped _ h
                  · exact .breached h
                  · rename_i mutation hverdict
                    exact .installed record hrecord (Bool.eq_false_iff.mpr hmember) hformed
                      (by simpa using hqualified) hcurrent (Nat.lt_of_not_le hahead) whole hwhole
                      folded hfold mutation hverdict h

end Replica

end UvrrCore
