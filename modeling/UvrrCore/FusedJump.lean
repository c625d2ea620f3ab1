import UvrrCore.Folding
import UvrrCore.Reached

/-!
# The fused jump and the stepwise walk

A replica may learn of a committed range in one step or in several. The fold of the range is the
same either way: the table, the frontier, the stop at the era window, the ballot and the refusal.
The published ballot carries the nominations from one step to the next, so the replica has to
serve on both sides of the cut or on neither; one that adopts its view at the cut runs the later
nominations and in one jump it does not.
-/

namespace UvrrCore

namespace Replica

variable {J : Type} [Journal J]

/-- What a commit fold comes to for the replica: the table, the frontier, whether the era window
stopped it, and the ballot behind it. -/
def foldOutcome (r : Replica J) (overlay : List LogEntry) (start through : Nat) :
    Except CommitFold (EraTable × Nat × Bool × Ballot) :=
  (r.foldCommitted overlay start through true).map fun folded =>
    (folded.config, folded.covered, folded.stopped, folded.bump.getD r.progress.current)

/-- The running ballot is the bump, or the published one. -/
theorem filter_getD (running : Option Ballot) (current : Ballot) :
    (running.filter fun view => view != current).getD current = running.getD current := by
  cases running with
  | none => rfl
  | some view =>
    by_cases heq : view = current
    · subst heq
      simp [Option.filter]
    · simp [Option.filter, heq]

/-- The outcome of a fold, from the end of its walk. -/
theorem foldOutcome_eq (r : Replica J) (overlay : List LogEntry) (start through : Nat) :
    r.foldOutcome overlay start through =
      (foldSlotsThrough (merged r.journal overlay) (r.runFuel overlay) r.progress.current through
        true (through - start) (r.folding start)).map fun end_ =>
          (end_.table, end_.covered, end_.stopped, end_.running.getD r.progress.current) := by
  unfold foldOutcome
  rw [foldCommitted_eq]
  cases foldSlotsThrough (merged r.journal overlay) (r.runFuel overlay) r.progress.current through
      true (through - start) (r.folding start) with
  | error error => rfl
  | ok end_ => simp only [Except.map, filter_getD]

/-- A fold runs over a ballot exactly at a serving replica. -/
theorem folding_running {r : Replica J} {overlay : List LogEntry} {start through : Nat}
    {paced : Bool} {end_ : Folding}
    (h : foldSlotsThrough (merged r.journal overlay) (r.runFuel overlay) r.progress.current
      through paced (through - start) (r.folding start) = .ok end_) :
    end_.running.isSome = true ↔ r.progress.status = .normal := by
  rw [foldSlotsThrough_isSome h, folding]
  split
  · rename_i hserving
    simp [hserving]
  · rename_i hserving
    simp [hserving]

/-- **The fused jump is the stepwise walk.** A fold of `(start, through]` comes to what the fold
of `(cut, through]` does on the replica that published the fold of `(start, cut]`. -/
theorem jump_eq_walk {r r' : Replica J} {overlay : List LogEntry} {start cut through : Nat}
    {folded : FoldedCommit} {status : Status} {accepted applied revision : Nat}
    {candidate : Progress} {plan : PlannedTransition} {released : List Effect}
    (hfirst : r.foldCommitted overlay start cut true = .ok folded)
    (hcovered : folded.covered = cut) (hcut : cut ≤ through)
    (hcandidate : r.candidateWith status accepted folded.covered applied folded.config
      folded.bump = .ok candidate)
    (hserving : status = .normal ↔ r.progress.status = .normal)
    (hplan : plan.candidate = candidate) (hjournal : plan.journal = .none)
    (hpublished : r.publish plan = (r', .ok (.published revision released))) :
    r.foldOutcome overlay start through = r'.foldOutcome overlay cut through := by
  obtain ⟨end_, hend, rfl⟩ := foldCommitted_ok hfirst
  obtain ⟨journal, hmutated, rfl, -⟩ := publish_published hpublished
  rw [hjournal] at hmutated
  obtain rfl : r.journal = journal := Except.ok.inj hmutated
  have hdata := candidateWith_ok hcandidate
  subst hplan
  have hcurrent : plan.candidate.current = end_.running.getD r.progress.current := by
    rw [hdata]
    exact filter_getD end_.running r.progress.current
  have hrunning := folding_running hend
  -- the walk goes on from exactly where the first part of the jump ended
  have hnext : (({ r with parked := none } : Replica J).installed plan r.journal).folding cut =
      { end_ with stopped := false } := by
    have hfield : (if plan.candidate.status = .normal then some plan.candidate.current else none) =
        end_.running := by
      rw [hcurrent, show plan.candidate.status = status from by rw [hdata]; rfl]
      cases hr : end_.running with
      | none =>
        rw [hr, ← hserving] at hrunning
        rw [if_neg (fun h => by simpa using hrunning.mpr h)]
      | some view =>
        rw [hr, ← hserving] at hrunning
        rw [if_pos (hrunning.mp rfl)]
        rfl
    have htable : plan.candidate.config = end_.table := by
      rw [hdata]
      rfl
    show ({ table := plan.candidate.config, covered := cut
            running := if plan.candidate.status = .normal then some plan.candidate.current
              else none
            stopped := false } : Folding) = _
    rw [hfield, htable, ← hcovered]
  have hstopped : end_.stopped = false := by
    by_contra hstopped
    rw [Bool.not_eq_false] at hstopped
    exact absurd hcovered (Nat.ne_of_lt (foldSlotsThrough_stopped hend rfl hstopped))
  have hwhole : { end_ with stopped := false } = end_ := by rw [← hstopped]
  have hsame : end_.running = none → plan.candidate.current = r.progress.current := by
    intro hnone
    rw [hcurrent, hnone]
    rfl
  have hend' : foldSlotsThrough (merged r.journal overlay) (r.runFuel overlay)
      r.progress.current cut true (cut - (r.folding start).covered) (r.folding start) =
      .ok end_ := hend
  have hsplit := foldSlotsThrough_split hcut hend' hcovered hsame
  rw [foldOutcome_eq, foldOutcome_eq, hnext, hwhole]
  show Except.map _ (foldSlotsThrough (merged r.journal overlay) (r.runFuel overlay)
    r.progress.current through true (through - (r.folding start).covered) (r.folding start)) =
    Except.map _ (foldSlotsThrough (merged r.journal overlay) (r.runFuel overlay)
      plan.candidate.current through true (through - cut) end_)
  rw [hsplit]
  -- where no ballot runs the published one is the same on both sides
  cases hrest : foldSlotsThrough (merged r.journal overlay) (r.runFuel overlay)
      plan.candidate.current through true (through - cut) end_ with
  | error error => rfl
  | ok last =>
    have hlast := foldSlotsThrough_isSome hrest
    show Except.ok (last.table, last.covered, last.stopped, last.running.getD r.progress.current) =
      Except.ok (last.table, last.covered, last.stopped, last.running.getD plan.candidate.current)
    cases hr : last.running with
    | some view => rfl
    | none =>
      rw [hr] at hlast
      have hnone : end_.running = none :=
        Option.not_isSome_iff_eq_none.mp (by rw [← hlast]; simp)
      rw [hsame hnone]

/-! ### A backup and its next life -/

/-- A message of the genesis primary in its first view. -/
def fromPrimary (slot : Nat) (body : Body) : TimedInput where
  time := 1
  event := .peer 1 { header := { view := { era := 1, view := 0 }, slot := slot }, body := body }

/-- A backup that holds a client operation, an increment and its rider, none of them committed. -/
def backup : Option (Replica SegmentedLog) :=
  let prepare (slot : Nat) (payload : Payload) : TimedInput :=
    fromPrimary slot (.prepare { slot := slot, era := 1, payload := payload } 2)
  (provision 2 [1, 2, 3] weightedMajority (SegmentedLog.withTailCapacity 4) .volatile
    { primaryTimeout := 0, viewChangeBudget := 1000 }).toOption.map fun r =>
      ((((r.step (prepare 3 (.operation ⟨0, 1⟩ []))).1.step
        (prepare 4 (.system (.increment 1)))).1.step
          (prepare 5 (.system (.nominate 0 1)))).1)

/-- The same node reopened on what it had made durable. -/
def reopenedBackup : Option (Replica SegmentedLog) :=
  backup.bind fun r =>
    (reopenFenced 2 weightedMajority r.journal r.progress.toProgressData .volatile
      { primaryTimeout := 0, viewChangeBudget := 1000 }).toOption

theorem backup_reached {r : Replica SegmentedLog} (h : backup = some r) : r.Reached := by
  unfold backup at h
  obtain ⟨fresh, hfresh, rfl⟩ := Option.map_eq_some_iff.mp h
  exact (((Reached.provision (toOption_eq_some hfresh)).step _).step _).step _

theorem reopenedBackup_reached {r : Replica SegmentedLog} (h : reopenedBackup = some r) :
    r.Reached := by
  obtain ⟨earlier, hearlier, h⟩ := Option.bind_eq_some_iff.mp h
  exact (backup_reached hearlier).reopen (toOption_eq_some h)

/-- The first part of a walk at a serving replica, published: the replica behind it. -/
def walkTo (r : Replica J) (cut : Nat) : Option (Replica J) :=
  match r.foldCommitted [] r.progress.committed cut true with
  | .error _ => none
  | .ok folded =>
    if folded.covered ≠ cut then none
    else
      match r.candidateWith r.progress.status r.progress.accepted folded.covered
          r.progress.applied folded.config folded.bump with
      | .error _ => none
      | .ok candidate =>
        match r.publish (r.candidatePlan candidate .none [] .tick false) with
        | (r', .ok (.published _ _)) => some r'
        | _ => none

/-- The serving backup walks to the increment and on through its rider. -/
theorem jump_eq_walk_backup : ∃ r r' : Replica SegmentedLog, r.Reached ∧
    r'.progress.committed = 3 ∧ r.foldOutcome [] 2 5 = r'.foldOutcome [] 3 5 := by
  have hwalk : ((backup.bind fun r => (walkTo r 3).map fun r' =>
      (r.progress.committed, r'.progress.committed))) = some (2, 3) := by decide +kernel
  obtain ⟨r, hr, hwalk⟩ := Option.bind_eq_some_iff.mp hwalk
  obtain ⟨r', hr', hpair⟩ := Option.map_eq_some_iff.mp hwalk
  obtain ⟨hstart, hcommitted⟩ := Prod.mk.inj hpair
  refine ⟨r, r', backup_reached hr, hcommitted, ?_⟩
  unfold walkTo at hr'
  rw [hstart] at hr'
  split at hr'
  · cases hr'
  · rename_i folded hfolded
    split at hr'
    · cases hr'
    · rename_i hcovered
      split at hr'
      · cases hr'
      · rename_i candidate hcandidate
        split at hr'
        · rename_i revision released hpublished
          cases hr'
          exact jump_eq_walk hfolded (not_not.mp hcovered) (by decide) hcandidate Iff.rfl rfl rfl
            hpublished
        · cases hr'

/-- Where the two parts of a walk on a commit message of the primary end up, and the jump. -/
def jumpsApart (r : Replica J) (cut through : Nat) : Bool :=
  match r.foldCommitted [] r.progress.committed cut true,
      r.plan (fromPrimary cut (.commit cut)) with
  | .ok folded, .ok plan =>
    match r.publish plan with
    | (r', .ok (.published _ _)) =>
      match r.foldOutcome [] r.progress.committed through, r'.foldOutcome [] cut through with
      | .ok jump, .ok walk => folded.covered == cut && jump.2 != walk.2
      | _, _ => false
    | _ => false
  | _, _ => false

/-- **The reopened backup jumps past the nomination.** At its boot fence it runs no nomination;
the commit of the client operation alone makes it serve, and then it runs the next one. -/
theorem reopened_jumps_apart : ∃ (r r' : Replica SegmentedLog) (folded : FoldedCommit)
    (plan : PlannedTransition) (revision : Nat) (released : List Effect), r.Reached ∧
    r.foldCommitted [] r.progress.committed 3 true = .ok folded ∧ folded.covered = 3 ∧
    r.plan (fromPrimary 3 (.commit 3)) = .ok plan ∧
    r.publish plan = (r', .ok (.published revision released)) ∧
    r.foldOutcome [] r.progress.committed 5 ≠ r'.foldOutcome [] 3 5 := by
  have happart : (reopenedBackup.map fun r => jumpsApart r 3 5) = some true := by decide +kernel
  obtain ⟨r, hr, happart⟩ := Option.map_eq_some_iff.mp happart
  unfold jumpsApart at happart
  split at happart
  · rename_i folded plan hfolded hplan
    split at happart
    · rename_i r' revision released hpublished
      split at happart
      · rename_i jump walk hjump hwalk
        rw [Bool.and_eq_true, beq_iff_eq, bne_iff_ne] at happart
        refine ⟨r, r', folded, plan, revision, released, reopenedBackup_reached hr, hfolded,
          happart.1, hplan, hpublished, fun heq => happart.2 ?_⟩
        rw [hjump, hwalk] at heq
        rw [Except.ok.inj heq]
      · cases happart
    · cases happart
  · cases happart

end Replica

end UvrrCore
