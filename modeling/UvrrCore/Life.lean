import UvrrCore.Runs
import UvrrCore.Tables

/-!
# What a life commits

A replica lives from its provisioning on, in any stability mode: it takes inputs one by one, and
between them its journal may be reclaimed at the published checkpoint. `Life` keeps, beside the
replica, the entries each publication newly committed, as the journal held them then, and the
apply effects released so far.

What a plan does to the journal it does to the log behind it (`Rewrite.lands`): the entries the
commit reads, through the overlay, are the ones the log holds afterwards. A plan keeps that while
it waits parked, whatever is reclaimed (`Landing`).
-/

namespace UvrrCore

/-- The effect a committed entry is applied by: a client operation's, and no system entry's. -/
def LogEntry.applied (entry : LogEntry) : Option Effect :=
  match entry.payload with
  | .operation id payload => some (.apply entry.slot id payload)
  | .system _ => none

/-! ### Reading a range -/

section Reading

variable {read : Nat → Option LogEntry} {log : List LogEntry} {left slot : Nat}
  {effects : List Effect}

/-- **What a commit applies** are the client operations of the range. -/
theorem applyRange_eq (h : applyRange read left slot = .ok effects)
    (hreads : ∀ s held, slot < s → s ≤ slot + left → read s = some held →
      logAt log s = some held ∧ held.slot = s) :
    effects = (logRange log slot (slot + left)).filterMap LogEntry.applied := by
  induction left generalizing slot effects with
  | zero =>
    cases h
    rw [Nat.add_zero, logRange_self]
    rfl
  | succ left ih =>
    simp only [applyRange] at h
    split at h
    · cases h
    · rename_i entry hentry
      obtain ⟨rest, hrest, h⟩ := bind_eq_ok.mp h
      obtain ⟨hheld, hslot⟩ := hreads _ entry (Nat.lt_succ_self _) (by omega) hentry
      have hlater := ih hrest fun s held hlow hhigh => hreads s held (by omega) (by omega)
      rw [show slot + (left + 1) = slot + 1 + left by omega,
        logRange_append (Nat.le_succ slot) (Nat.le_add_right _ _), logRange_succ hheld,
        List.filterMap_append, ← hlater]
      unfold LogEntry.applied
      split at h
      · rename_i id payload hpayload
        simp only [List.filterMap_cons, List.filterMap_nil, hpayload, hslot]
        exact (pure_eq_ok.mp h).symm
      · rename_i op hpayload
        simp only [List.filterMap_cons, List.filterMap_nil, hpayload]
        exact (pure_eq_ok.mp h).symm

end Reading

/-- A log that holds an offer. -/
theorem Shaped.offered {entries : List LogEntry} {accepted : Nat} (h : Shaped entries accepted) :
    ∃ offered, Offers entries offered ∧
      ∀ slot, firstSlot entries accepted ≤ slot → logAt offered slot = entryAt entries slot := by
  obtain ⟨hpos, -, hrun, -⟩ := firstSlot_of_shaped h
  generalize firstSlot entries accepted = first at hpos hrun
  have hfiller : (List.replicate (first - 1) (⟨0, 0, .system .void⟩ : LogEntry)).length =
      first - 1 := List.length_replicate
  have hread : ∀ slot, first ≤ slot →
      logAt (List.replicate (first - 1) ⟨0, 0, .system .void⟩ ++ entries) slot =
        entryAt entries slot := by
    intro slot hle
    refine logAt_append ?_ (by rw [hfiller]; omega)
    rw [hfiller, Nat.sub_add_cancel hpos]
    exact hrun
  refine ⟨_, fun entry hmem => ?_, hread⟩
  obtain ⟨hlow, hhigh⟩ := hrun.mem_slot hmem
  obtain ⟨held, -, -, hat⟩ := hrun.entryAt_mem entry.slot hlow hhigh
  rw [hread _ hlow, hrun.entryAt_eq, if_neg (by omega)]
  obtain ⟨i, hi⟩ := List.getElem?_of_mem hmem
  have hslot := hrun.entryAt_eq (first + i)
  rw [if_neg (by omega), Nat.add_sub_cancel_left, hi] at hslot
  rw [entryAt_slot hslot, Nat.add_sub_cancel_left, hi]

/-! ### Landing -/

/-- **What a publication commits**: the entries the log behind it holds at the newly committed
slots. It applies their client operations, and the table grows by their runs. -/
structure Commits (log : List LogEntry) (p next : ProgressData) (applies : List Effect) : Prop where
  forward : p.committed ≤ next.committed
  behind : next.committed ≤ log.length
  applies : applies = (logRange log p.committed next.committed).filterMap LogEntry.applied
  table : ∃ grown, Runs p.config (logRange log p.committed next.committed) grown ∧
    grown.UpToPivot next.config

/-- A publication that leaves frontier and table alone. -/
theorem Commits.still {log : List LogEntry} {p next : ProgressData}
    (hcommitted : next.committed = p.committed) (hconfig : next.config = p.config)
    (hbehind : p.committed ≤ log.length) : Commits log p next [] := by
  refine ⟨hcommitted.ge, hcommitted ▸ hbehind, ?_, p.config, ?_, .inl hconfig⟩
  · rw [hcommitted, logRange_self]
    rfl
  · rw [hcommitted, logRange_self]
    exact .nil

/-- **Where a transition lands**: what its mutation makes of the log, and what it commits of it. -/
structure Lands (uncut : Prop) (log log' : List LogEntry) (p next : ProgressData)
    (mutation : JournalMutation) (applies : List Effect) : Prop where
  mutates : Mutates log mutation log'
  frontier : uncut → log'.length = next.accepted
  commits : Commits log' p next applies

namespace Replica

variable {J : Type} [Journal J] [LawfulJournal J]

theorem merged_slot {journal : J} {overlay : List LogEntry} {slot : Nat} {entry : LogEntry}
    (h : merged journal overlay slot = some entry) : entry.slot = slot := by
  unfold merged at h
  split at h
  · rename_i held hheld
    cases h
    exact entryAt_slot hheld
  · exact LawfulJournal.get_slot h

omit [LawfulJournal J] in
/-- The log behind an accepted suffix holds what the merged reads answered. -/
theorem checkSuffix_lands {r : Replica J} {log overlay : List LogEntry}
    {accepted committed discharged : Nat} {mutation : JournalMutation}
    (hreads : Reads r.journal log) (hlength : r.progress.accepted = log.length)
    (hshape : Shaped overlay accepted)
    (hcheck : r.checkSuffix overlay accepted committed discharged = .install mutation)
    (hdischarged : discharged ≤ r.progress.checkpoint) :
    ∃ log', Mutates log mutation log' ∧ log'.length = accepted ∧
      firstSlot overlay accepted ≤ log.length + 1 ∧
      ∀ slot entry, r.progress.checkpoint < slot → slot ≤ accepted →
        merged r.journal overlay slot = some entry → logAt log' slot = some entry := by
  obtain ⟨offered, hoffers, hoffered⟩ := hshape.offered
  obtain ⟨log', hmutates, hlen, hfirst, hbelow, habove⟩ :=
    checkSuffix_spliced hreads hlength hoffers hshape hcheck
  refine ⟨log', hmutates, hlen, hfirst, fun slot entry hlow hhigh hmerged => ?_⟩
  obtain ⟨-, -, hrun, hend⟩ := firstSlot_of_shaped hshape
  by_cases hin : firstSlot overlay accepted ≤ slot
  · rcases habove slot hin hhigh with heq | ⟨hle, -⟩
    · obtain ⟨held, hheld⟩ := Option.isSome_iff_exists.mp
        ((hrun.entryAt_isSome slot).mpr ⟨hin, by omega⟩)
      unfold merged at hmerged
      simp only [hheld] at hmerged
      rw [heq, hoffered slot hin, hheld, hmerged]
    · omega
  · have hnone : entryAt overlay slot = none := by
      rw [hrun.entryAt_eq, if_pos (by omega)]
    unfold merged at hmerged
    simp only [hnone] at hmerged
    rw [hbelow slot (by omega)]
    exact hreads slot entry hmerged

omit [LawfulJournal J] in
/-- **The log behind a mutation** covers what the plan commits, and holds what its fold reads. -/
theorem Rewrite.lands {r : Replica J} {given : Given} {log overlay : List LogEntry}
    {covered accepted : Nat} {mutation : JournalMutation}
    (h : r.Rewrite given overlay covered mutation accepted)
    (hshaped : ∀ entries accepted, given.shape entries accepted → Shaped entries accepted)
    (hreads : Reads r.journal log) (hlength : r.progress.accepted = log.length)
    (hcovered : covered ≤ accepted) :
    ∃ log', Mutates log mutation log' ∧ covered ≤ log'.length ∧
      (given.uncut → log'.length = accepted) ∧
      ∀ slot entry, r.progress.checkpoint < slot → slot ≤ covered →
        merged r.journal overlay slot = some entry → logAt log' slot = some entry := by
  cases h with
  | kept hoverlay =>
    subst hoverlay
    refine ⟨log, rfl, by omega, fun _ => hlength.symm, fun slot entry _ _ hmerged => ?_⟩
    exact hreads slot entry hmerged
  | @appended entries last hoverlay hrun hlast hwidth =>
    have hend := hrun.getLast?_slot hlast
    refine ⟨log ++ entries, rfl, ?_, fun _ => ?_, fun slot entry hlow hhigh hmerged => ?_⟩
    · rw [List.length_append]
      omega
    · rw [List.length_append]
      omega
    · have hget : Journal.get r.journal slot = some entry →
          logAt (log ++ entries) slot = some entry := by
        intro hget
        have hentry := hreads slot entry hget
        rw [logAt_append_left (logAt_lt hentry).2]
        exact hentry
      rcases hoverlay with rfl | rfl
      · exact hget hmerged
      · unfold merged at hmerged
        split at hmerged
        · rename_i held hheld
          cases hmerged
          have hin := (hrun.entryAt_isSome slot).mp (by rw [hheld]; rfl)
          rw [logAt_append (hlength ▸ hrun) (by omega)]
          exact hheld
        · exact hget hmerged
  | spliced hshape hcheck hdischarged _ =>
    obtain ⟨log', hmutates, hlen, -, hholds⟩ :=
      checkSuffix_lands hreads hlength (hshaped _ _ hshape) hcheck hdischarged
    exact ⟨log', hmutates, by omega, fun _ => hlen,
      fun slot entry hlow hhigh => hholds slot entry hlow (by omega)⟩
  | @truncated _ through committed hboot hcut hshape hwhole hshort hcheck =>
    obtain ⟨whole, hwhole⟩ := hwhole
    obtain ⟨-, -, -, hnear, -⟩ :=
      checkSuffix_lands hreads hlength (hshaped _ _ hshape) hwhole (Nat.zero_le _)
    obtain ⟨hpos, -, hrun, hend⟩ := firstSlot_of_shaped (hshaped _ _ hshape)
    unfold truncatedMutation at hcheck
    simp only at hcheck
    split at hcheck
    · -- nothing of the chunk is covered: the journal stays
      rename_i hnone
      cases hcheck
      have hbelow : covered < firstSlot overlay through := by
        by_contra hle
        obtain ⟨entry, hmem, hslot, -⟩ := hrun.entryAt_mem (firstSlot overlay through)
          (Nat.le_refl _) (by omega)
        rw [List.isEmpty_iff, List.filter_eq_nil_iff] at hnone
        have := hnone entry hmem
        simp only [decide_eq_true_eq] at this
        omega
      refine ⟨log, rfl, by omega, fun _ => by omega, fun slot entry hlow hhigh hmerged => ?_⟩
      have hmiss : entryAt overlay slot = none := by
        rw [hrun.entryAt_eq, if_pos (by omega)]
      unfold merged at hmerged
      simp only [hmiss] at hmerged
      exact hreads slot entry hmerged
    · rename_i hsome
      have hreached : firstSlot overlay through ≤ covered := by
        by_contra hlt
        refine hsome (List.isEmpty_iff.mpr (List.filter_eq_nil_iff.mpr fun entry hmem => ?_))
        have := (hrun.mem_slot hmem).1
        simp only [decide_eq_true_eq]
        omega
      obtain ⟨hfiltered, -⟩ := filter_shaped (hshaped _ _ hshape) hshort.le hreached
      obtain ⟨log', hmutates, hlen, -, hholds⟩ :=
        checkSuffix_lands hreads hlength hfiltered hcheck (Nat.zero_le _)
      refine ⟨log', hmutates, by omega, fun huncut => ?_,
        fun slot entry hlow hhigh hmerged => hholds slot entry hlow hhigh ?_⟩
      · rcases hcut huncut with hle | rfl
        · omega
        · obtain rfl : log' = log := hmutates
          omega
      unfold merged at hmerged ⊢
      rwa [entryAt_covered overlay hhigh]

theorem Advance.lands {r : Replica J} {given : Given} {log : List LogEntry} {next : ProgressData}
    {mutation : JournalMutation} {applies : List Effect} (h : r.Advance given next mutation applies)
    (hshaped : ∀ entries accepted, given.shape entries accepted → Shaped entries accepted)
    (hreads : Reads r.journal log)
    (hlength : r.progress.accepted = log.length) (hnext : next.committed ≤ next.accepted) :
    ∃ log', Lands given.uncut log log' r.progress.toProgressData next mutation applies := by
  cases h with
  | still hcommitted _ hconfig happlies hrewrite =>
    obtain ⟨log', hmutates, hbehind, hfrontier, -⟩ :=
      hrewrite.lands hshaped hreads hlength (hcommitted ▸ hnext)
    subst happlies
    exact ⟨log', hmutates, hfrontier, .still hcommitted hconfig hbehind⟩
  | @commit overlay seen through paced folded hfold hcommitted _ hconfig hseen happlies hrewrite =>
    obtain ⟨log', hmutates, hbehind, hfrontier, hholds⟩ :=
      hrewrite.lands hshaped hreads hlength (hcommitted ▸ hnext)
    have hforward := (foldCommitted_covered hfold).1
    have hcheckpoint := r.progress.checkpoint_le_applied.trans r.progress.applied_le_committed
    have hrange : r.progress.committed + (folded.covered - r.progress.committed) =
        folded.covered := Nat.add_sub_cancel' hforward
    -- the operations are read through the overlay, or from the journal of an append
    have hreadsSeen : ∀ s held, r.progress.committed < s → s ≤ folded.covered →
        merged r.journal seen s = some held → logAt log' s = some held ∧ held.slot = s := by
      intro s held hlow hhigh hmerged
      refine ⟨?_, merged_slot hmerged⟩
      rcases hseen with rfl | ⟨rfl, entries, hentries⟩
      · exact hholds s held (hcheckpoint.trans_lt hlow) hhigh hmerged
      · have hheld : logAt log s = some held := hreads s held hmerged
        rw [hentries] at hmutates
        obtain rfl : log' = log ++ entries := hmutates
        rw [logAt_append_left (logAt_lt hheld).2]
        exact hheld
    have happlied := applyRange_eq happlies (by rwa [hrange])
    obtain ⟨end_, hend, rfl⟩ := foldCommitted_ok hfold
    rw [hrange] at happlied
    have hruns : Runs r.progress.config (logRange log' r.progress.committed end_.covered)
        end_.table :=
      foldSlotsThrough_runs hend
        (fun s held hlow hhigh hmerged =>
          ⟨hholds s held (hcheckpoint.trans_lt hlow) hhigh hmerged, merged_slot hmerged⟩)
        rfl rfl
    refine ⟨log', hmutates, hfrontier, hcommitted ▸ hforward, hcommitted ▸ hbehind, ?_,
      end_.table, ?_, hconfig⟩
    · rw [hcommitted]
      exact happlied
    · rw [hcommitted]
      exact hruns

end Replica

/-! ### The invariant of a life -/

variable {J : Type} [Journal J]

/-- What a journal holds at the slots behind `start` up to `through`. -/
def committedIn (journal : J) (start through : Nat) : List LogEntry :=
  (List.range' (start + 1) (through - start)).filterMap (Journal.get journal)

/-- A journal that has let go of nothing behind `start` holds the range of its log. -/
theorem committedIn_eq [LawfulJournal J] {journal : J} {log : List LogEntry} {start through : Nat}
    (hreads : Reads journal log) (hfrontier : Journal.accepted journal = some log.length)
    (hfirst : (Journal.retained journal).1 ≤ start + 1) (hle : start ≤ through)
    (hthrough : through ≤ log.length) :
    committedIn journal start through = logRange log start through ∧
      (committedIn journal start through).map LogEntry.slot =
        List.range' (start + 1) (through - start) := by
  obtain ⟨count, rfl⟩ := Nat.exists_eq_add_of_le hle
  induction count with
  | zero =>
    rw [Nat.add_zero, logRange_self]
    unfold committedIn
    rw [Nat.sub_self]
    exact ⟨rfl, rfl⟩
  | succ count ih =>
    obtain ⟨hrange, hslots⟩ := ih (Nat.le_add_right _ _) (by omega)
    obtain ⟨entry, hentry⟩ := Option.isSome_iff_exists.mp
      (LawfulJournal.get_isSome hfrontier (by omega)
        (show start + count + 1 ≤ log.length from hthrough))
    have hmore : committedIn journal start (start + (count + 1)) =
        committedIn journal start (start + count) ++ [entry] := by
      unfold committedIn
      rw [show start + (count + 1) - start = count + 1 by omega, List.range'_concat,
        List.filterMap_append, Nat.add_sub_cancel_left]
      congr 1
      rw [show start + 1 + 1 * count = start + count + 1 by omega, List.filterMap_cons, hentry]
      rfl
    constructor
    · rw [hmore, hrange, ← Nat.add_assoc, logRange_append (Nat.le_add_right start count)
        (Nat.le_succ _), logRange_succ (hreads _ entry hentry)]
    · rw [hmore, List.map_append, hslots, show start + (count + 1) - start = count + 1 by omega,
        List.range'_concat, Nat.add_sub_cancel_left, List.map_singleton,
        LawfulJournal.get_slot hentry]
      congr 2
      omega

/-- A parked transition that will land. -/
structure ParkedTransition.Backed (uncut : Prop) (log : List LogEntry) (p : ProgressData)
    (parked : ParkedTransition) : Prop where
  lands : ∃ log', Lands uncut log log' p parked.candidate.toProgressData parked.journal
    (parked.effects.filter Effect.isApply)
  attempt : ∀ attempt, parked.bookkeeping.viewChange = .set attempt → attempt.WellReported
  offer : ∀ offer, parked.bookkeeping.stalled = .set offer → offer.message.Storable

/-- What is parked depends on the frontier and the table only. -/
theorem ParkedTransition.Backed.of_record {uncut : Prop} {log : List LogEntry}
    {parked : ParkedTransition} {p p' : ProgressData} (h : parked.Backed uncut log p)
    (hcommitted : p'.committed = p.committed) (hconfig : p'.config = p.config) :
    parked.Backed uncut log p' := by
  obtain ⟨log', hmutates, hfrontier, hcommits⟩ := h.lands
  refine ⟨⟨log', hmutates, hfrontier, ?_, hcommits.behind, ?_, ?_⟩, h.attempt, h.offer⟩
  · rw [hcommitted]
    exact hcommits.forward
  · rw [hcommitted]
    exact hcommits.applies
  · rw [hcommitted, hconfig]
    exact hcommits.table

/-- Every entry the message of an input carries has a slot after it. -/
def TimedInput.Storable (input : TimedInput) : Prop :=
  ∀ sender message, input.event = .peer sender message → message.Storable

namespace Replica

/-- **A backed replica.** Its journal is what is left of a log that goes as far as it does and
reaches back to the checkpoint. In a life without chunks cut short the accepted frontier is the
log's end. -/
structure Backed (uncut : Prop) (r : Replica J) (log : List LogEntry) : Prop where
  reads : Reads r.journal log
  frontier : Journal.accepted r.journal = some log.length
  first : (Journal.retained r.journal).1 ≤ r.progress.checkpoint + 1
  committed : r.progress.committed ≤ log.length
  aligned : uncut → r.progress.accepted = log.length
  attempt : ∀ attempt, r.viewChange = some attempt → attempt.WellReported
  offer : r.OfferStorable
  parked : ∀ parked, r.parked = some parked →
    parked.Backed uncut log r.progress.toProgressData

/-- What one input makes of a backed replica: another one, and the newly committed entries as
its journal holds them. -/
structure Stepped (uncut : Prop) (r r' : Replica J) (applies : List Effect) : Prop where
  backed : ∃ log', r'.Backed uncut log' ∧
    committedIn r'.journal r.progress.committed r'.progress.committed =
      logRange log' r.progress.committed r'.progress.committed ∧
    Commits log' r.progress.toProgressData r'.progress.toProgressData applies
  slots : (committedIn r'.journal r.progress.committed r'.progress.committed).map LogEntry.slot =
    List.range' (r.progress.committed + 1) (r'.progress.committed - r.progress.committed)

variable {uncut : Prop} {r : Replica J} {log : List LogEntry}

/-- Only the fault and the revision of the record changed. -/
theorem Backed.still (h : r.Backed uncut log) {r' : Replica J} (hjournal : r'.journal = r.journal)
    (hcommitted : r'.progress.committed = r.progress.committed)
    (haccepted : r'.progress.accepted = r.progress.accepted)
    (hcheckpoint : r'.progress.checkpoint = r.progress.checkpoint)
    (hconfig : r'.progress.config = r.progress.config) (hattempt : r'.viewChange = r.viewChange)
    (hoffer : r'.stalled = r.stalled) (hparked : ∀ parked, r'.parked = some parked →
      parked.Backed uncut log r'.progress.toProgressData) :
    Stepped uncut r r' [] := by
  have hnothing : committedIn r'.journal r.progress.committed r'.progress.committed = [] := by
    unfold committedIn
    rw [hcommitted, Nat.sub_self]
    rfl
  refine ⟨⟨log, ⟨hjournal ▸ h.reads, hjournal ▸ h.frontier, ?_, hcommitted ▸ h.committed,
    haccepted ▸ h.aligned, hattempt ▸ h.attempt, ?_, hparked⟩, ?_, ?_⟩, ?_⟩
  · rw [hjournal, hcheckpoint]
    exact h.first
  · unfold OfferStorable
    rw [hoffer]
    exact h.offer
  · rw [hnothing, hcommitted, logRange_self]
  · exact .still hcommitted hconfig h.committed
  · rw [hnothing, hcommitted, Nat.sub_self]
    rfl

/-- What lands is backed again. -/
theorem Backed.landed [LawfulJournal J] (h : r.Backed uncut log) {log' : List LogEntry}
    {plan : PlannedTransition} {journal : J} {applies : List Effect}
    (hlands : Lands uncut log log' r.progress.toProgressData plan.candidate.toProgressData
      plan.journal applies)
    (hattempt : ∀ attempt, plan.bookkeeping.viewChange = .set attempt → attempt.WellReported)
    (hoffer : ∀ offer, plan.bookkeeping.stalled = .set offer → offer.message.Storable)
    (hcheckpoint : r.progress.checkpoint ≤ plan.candidate.checkpoint)
    (hjournal : mutateJournal r.journal plan.journal = .ok journal) :
    Stepped uncut r (({ r with parked := none } : Replica J).installed plan journal) applies := by
  obtain ⟨hreads, hfrontier, hfirst⟩ := hlands.mutates.reads h.reads h.frontier hjournal
  have hold := h.first
  obtain ⟨hrange, hslots⟩ := committedIn_eq hreads hfrontier (by
    show (Journal.retained journal).1 ≤ r.progress.committed + 1
    have := r.progress.checkpoint_le_applied
    have := r.progress.applied_le_committed
    omega) hlands.commits.forward hlands.commits.behind
  have hkept : (({ r with parked := none } : Replica J).installed plan journal).OfferStorable :=
    OfferStorable.installed h.offer hoffer
  refine ⟨⟨log', ⟨hreads, hfrontier, ?_, hlands.commits.behind, fun huncut =>
    (hlands.frontier huncut).symm, installed_reported h.attempt hattempt, hkept,
    fun _ hnone => by cases hnone⟩, hrange, hlands.commits⟩, hslots⟩
  show (Journal.retained journal).1 ≤ plan.candidate.checkpoint + 1
  omega

/-- The gate of a plan finds the record in step with the log. -/
theorem Backed.accepted_eq (h : r.Backed uncut log) {input : TimedInput} {plan : PlannedTransition}
    (hplan : r.plan input = .ok plan) : r.progress.accepted = log.length := by
  have hgate := (plan_gate hplan).2
  rw [h.frontier, Option.getD_some] at hgate
  exact hgate.symm

/-- What a backed replica has at hand is well formed. -/
theorem Backed.wellFed [LawfulJournal J] (h : r.Backed uncut log) {input : TimedInput}
    (hstorable : input.Storable) : r.WellFed input := by
  have hown : Shaped r.ownEvidence.suffix r.ownEvidence.accepted :=
    (boundedSuffix_run h.reads (show Offers [] log from fun _ hmem => nomatch hmem) (.inl rfl)
      fun _ _ => rfl).2
  exact ⟨⟨hown, h.attempt⟩, h.offer, hstorable⟩

/-- **Every plan of a backed replica lands.** -/
theorem Backed.plan [LawfulJournal J] (h : r.Backed uncut log) {input : TimedInput}
    (hstorable : input.Storable) (hcut : uncut → ¬ r.CutsShort input)
    {plan : PlannedTransition} (hplan : r.plan input = .ok plan) :
    (∃ log', Lands uncut log log' r.progress.toProgressData plan.candidate.toProgressData
      plan.journal (plan.effects.filter Effect.isApply)) ∧
    (∀ attempt, plan.bookkeeping.viewChange = .set attempt → attempt.WellReported) ∧
    ∀ offer, plan.bookkeeping.stalled = .set offer → offer.message.Storable := by
  rcases plan_source hplan with hdrafted | ⟨revision, result, hconfirmed⟩
  · have hlength := h.accepted_eq hplan
    have hfed := h.wellFed hstorable
    obtain ⟨log', hlands⟩ := hdrafted.advance.lands (fun _ _ hshape => hshape hfed) h.reads hlength
      plan.candidate.committed_le_accepted
    exact ⟨⟨log', hlands.mutates, fun huncut => hlands.frontier (hcut huncut), hlands.commits⟩,
      fun attempt hset => (hdrafted.reports attempt hset).mono fun _ _ hshape => hshape hfed,
      fun offer hset => hdrafted.offers offer hset hfed⟩
  · rcases planConfirmation_candidate hconfirmed with
      ⟨parked, hparked, hcandidate, hjournal, heffects, hbookkeeping⟩ |
      ⟨⟨fault, hdata⟩, hjournal, heffects, hbookkeeping⟩
    · rw [hcandidate, hjournal, heffects, hbookkeeping]
      have hbacked := h.parked parked hparked
      exact ⟨hbacked.lands, hbacked.attempt, hbacked.offer⟩
    · rw [hdata, hjournal, heffects, hbookkeeping]
      exact ⟨⟨log, rfl, fun huncut => (h.aligned huncut).symm, .still rfl rfl h.committed⟩,
        fun _ hset => (by cases hset), fun _ hset => (by cases hset)⟩

theorem Backed.faultNode (h : r.Backed uncut log) {r' : Replica J}
    (hsame : r' = r ∨ r' = { r with parked := none }) (fault : Fault) :
    Stepped uncut r (r'.faultNode fault) [] := by
  have hparked : ∀ parked, r'.parked = some parked →
      parked.Backed uncut log r.progress.toProgressData := by
    rcases hsame with rfl | rfl
    · exact h.parked
    · exact fun _ hnone => nomatch hnone
  have hrecord : r'.journal = r.journal ∧ r'.progress = r.progress ∧ r'.viewChange = r.viewChange ∧
      r'.stalled = r.stalled := by
    rcases hsame with rfl | rfl <;> exact ⟨rfl, rfl, rfl, rfl⟩
  obtain ⟨hjournal, hprogress, hview, hstalled⟩ := hrecord
  rcases faultNode_cases r' fault with heq | ⟨progress, heq, hdata⟩
  · rw [heq]
    refine h.still hjournal ?_ ?_ ?_ ?_ hview hstalled ?_
    all_goals rw [hprogress]
    exact hparked
  · rw [heq]
    rw [hprogress] at hdata
    refine h.still hjournal ?_ ?_ ?_ ?_ hview hstalled fun parked hsome => ?_
    · show progress.committed = _
      rw [hdata]
    · show progress.accepted = _
      rw [hdata]
    · show progress.checkpoint = _
      rw [hdata]
    · show progress.config = _
      rw [hdata]
    · refine (hparked parked hsome).of_record ?_ ?_
      · show progress.committed = _
        rw [hdata]
      · show progress.config = _
        rw [hdata]

/-- **One input keeps a replica backed.** -/
theorem Backed.step [LawfulJournal J] (h : r.Backed uncut log) {input : TimedInput}
    (hstorable : input.Storable) (hcut : uncut → ¬ r.CutsShort input) :
    Stepped uncut r (r.step input).1 ((r.step input).2.filter Effect.isApply) := by
  have houtcome := step_outcome r input
  generalize r.step input = out at houtcome
  cases houtcome with
  | refused => exact h.still rfl rfl rfl rfl rfl rfl rfl h.parked
  | faulted fault => exact h.faultNode (.inl rfl) fault
  | diverged plan hplan hlegal => exact h.faultNode (.inr rfl) _
  | parked plan hplan hfresh hstability hnone =>
    refine h.still rfl rfl rfl rfl rfl rfl rfl fun parked hparked => ?_
    cases hparked
    obtain ⟨hlands, hattempt, hoffer⟩ := h.plan hstorable hcut hplan
    exact ⟨hlands, hattempt, hoffer⟩
  | published plan journal hplan hbase hfault hlegal hjournal =>
    obtain ⟨⟨log', hlands⟩, hattempt, hoffer⟩ := h.plan hstorable hcut hplan
    exact h.landed hlands hattempt hoffer (checkpoint_le_of_legal hlegal) hjournal

/-! ### Lives -/

/-- **A life of a replica** from its provisioning on, under inputs of a kind: the replica, the
entries each input newly committed, and the apply effects released. -/
inductive Life (allowed : Replica J → TimedInput → Prop) :
    Replica J → List (List LogEntry) → List Effect → Prop
  | provision {own : Nat} {order : List Nat} {strategy : QuorumStrategy} {journal : J}
      {stability : Stability} {knobs : ViewChangeKnobs} {r : Replica J}
      (h : provision own order strategy journal stability knobs = .ok r) : Life allowed r [] []
  | witnesses {r : Replica J} {ranges : List (List LogEntry)} {released : List Effect}
      (h : Life allowed r ranges released) (witnesses : List Nat) :
      Life allowed (r.withWitnesses witnesses) ranges released
  | step {r : Replica J} {ranges : List (List LogEntry)} {released : List Effect}
      (h : Life allowed r ranges released) (input : TimedInput) (hallowed : allowed r input) :
      Life allowed (r.step input).1
        (ranges ++ [committedIn (r.step input).1.journal r.progress.committed
          (r.step input).1.progress.committed])
        (released ++ (r.step input).2.filter Effect.isApply)
  | reclaim {r : Replica J} {ranges : List (List LogEntry)} {released : List Effect}
      (h : Life allowed r ranges released) {journal : J}
      (hreclaims : Reclaims r.journal journal r.progress.checkpoint) :
      Life allowed { r with journal := journal } ranges released

theorem Life.reached {allowed : Replica J → TimedInput → Prop} {ranges : List (List LogEntry)}
    {released : List Effect} (h : Life allowed r ranges released) : r.Reached := by
  induction h with
  | provision h => exact .provision h
  | witnesses h witnesses ih => exact ih.witnesses witnesses
  | step h input hallowed ih => exact ih.step input
  | reclaim h hreclaims ih => exact ih.reclaim hreclaims

theorem Life.mono {allowed allowed' : Replica J → TimedInput → Prop}
    (himp : ∀ r input, allowed r input → allowed' r input) {ranges : List (List LogEntry)}
    {released : List Effect} (h : Life allowed r ranges released) :
    Life allowed' r ranges released := by
  induction h with
  | provision h => exact .provision h
  | witnesses h witnesses ih => exact ih.witnesses witnesses
  | step h input hallowed ih => exact ih.step input (himp _ _ hallowed)
  | reclaim h hreclaims ih => exact ih.reclaim hreclaims

/-- **The table behind the committed ranges of a life**: grown from the genesis one by the runs of
each range, some of its records given a pivot. -/
inductive Chronicle : List (List LogEntry) → EraTable → Prop
  | genesis {order : List Nat} {table : EraTable} (h : genesisTable order = .ok table) :
      Chronicle [] table
  | commit {ranges : List (List LogEntry)} {range : List LogEntry} {table grown marked : EraTable}
      (h : Chronicle ranges table) (hruns : Runs table range grown)
      (hmarked : grown.UpToPivot marked) : Chronicle (ranges ++ [range]) marked

/-- What a life keeps. -/
structure Lived (uncut : Prop) (r : Replica J) (ranges : List (List LogEntry))
    (released : List Effect) : Prop where
  backed : ∃ log, r.Backed uncut log
  genesis : initSlot ≤ r.progress.committed
  released : released = ranges.flatten.filterMap LogEntry.applied
  slots : ranges.flatten.map LogEntry.slot =
    List.range' (initSlot + 1) (r.progress.committed - initSlot)
  table : Chronicle ranges r.progress.config

theorem lived_provision [LawfulJournal J] {own : Nat} {order : List Nat}
    {strategy : QuorumStrategy} {journal : J} {stability : Stability} {knobs : ViewChangeKnobs}
    {r : Replica J} (h : provision own order strategy journal stability knobs = .ok r) :
    Lived uncut r [] [] := by
  obtain ⟨table, journal', progress, htable, hempty, hinstall, hdata, rfl⟩ := provision_data h
  obtain ⟨-, hrun, hlast, hfirst, hget⟩ := LawfulJournal.installSuffix_fresh hempty hinstall
  have hlog : ∀ slot entry, Journal.get journal' slot = some entry →
      logAt (genesisEntries order table.current.era) slot = some entry := by
    intro slot entry hentry
    rw [hget] at hentry
    have hlow := ((hrun.entryAt_isSome slot).mp (by rw [hentry]; rfl)).1
    have hread : logAt ([] ++ genesisEntries order table.current.era) slot =
        entryAt (genesisEntries order table.current.era) slot :=
      logAt_append (show ContiguousFrom (([] : List LogEntry).length + 1) _ from hrun) hlow
    rw [List.nil_append] at hread
    rw [hread, hentry]
  refine ⟨⟨_, hlog, hlast, ?_, ?_, fun _ => ?_, fun _ hnone => (by cases hnone),
    fun _ hnone => (by cases hnone), fun _ hnone => (by cases hnone)⟩, ?_, rfl, ?_, ?_⟩
  · show (Journal.retained journal').1 ≤ progress.checkpoint + 1
    rw [hfirst]
    exact Nat.le_add_left _ _
  · show progress.committed ≤ _
    rw [hdata]
    exact Nat.le_refl _
  · show progress.accepted = _
    rw [hdata]
    rfl
  · show initSlot ≤ progress.committed
    rw [hdata]
  · show [] = List.range' (initSlot + 1) (progress.committed - initSlot)
    rw [hdata]
    rfl
  · show Chronicle [] progress.config
    rw [hdata]
    exact .genesis htable

theorem Lived.step [LawfulJournal J] {ranges : List (List LogEntry)} {released : List Effect}
    (h : Lived uncut r ranges released) {input : TimedInput} (hstorable : input.Storable)
    (hcut : uncut → ¬ r.CutsShort input) :
    Lived uncut (r.step input).1
      (ranges ++ [committedIn (r.step input).1.journal r.progress.committed
        (r.step input).1.progress.committed])
      (released ++ (r.step input).2.filter Effect.isApply) := by
  obtain ⟨log, hbacked⟩ := h.backed
  obtain ⟨⟨log', hbacked', hrange, hcommits⟩, hslots⟩ := hbacked.step hstorable hcut
  have hgenesis := h.genesis
  have hforward := hcommits.forward
  refine ⟨⟨log', hbacked'⟩, by omega, ?_, ?_, ?_⟩
  · rw [hcommits.applies, h.released, List.flatten_append, List.filterMap_append,
      List.flatten_singleton, hrange]
  · rw [List.flatten_append, List.map_append, h.slots, List.flatten_singleton, hslots]
    rw [show r.progress.committed + 1 =
        initSlot + 1 + 1 * (r.progress.committed - initSlot) by omega, List.range'_append]
    congr 1
    omega
  · obtain ⟨grown, hruns, hmarked⟩ := hcommits.table
    rw [hrange]
    exact h.table.commit hruns hmarked

theorem Lived.reclaim [LawfulJournal J] {ranges : List (List LogEntry)} {released : List Effect}
    (h : Lived uncut r ranges released) {journal : J}
    (hreclaims : Reclaims r.journal journal r.progress.checkpoint) :
    Lived uncut { r with journal := journal } ranges released := by
  obtain ⟨log, hbacked⟩ := h.backed
  refine ⟨⟨log, fun slot entry hheld => hbacked.reads slot entry (hreclaims.held slot entry hheld),
    hreclaims.accepted.trans hbacked.frontier, hreclaims.first hbacked.first,
    hbacked.committed, hbacked.aligned, hbacked.attempt, hbacked.offer, hbacked.parked⟩,
    h.genesis, h.released, h.slots, h.table⟩

/-- **What every life keeps.** -/
theorem Life.lived [LawfulJournal J] {allowed : Replica J → TimedInput → Prop}
    (hallowed : ∀ r input, allowed r input → input.Storable ∧ (uncut → ¬ r.CutsShort input))
    {ranges : List (List LogEntry)} {released : List Effect}
    (h : Life allowed r ranges released) : Lived uncut r ranges released := by
  induction h with
  | provision h => exact lived_provision h
  | witnesses h witnesses ih =>
    obtain ⟨⟨log, hbacked⟩, hgenesis, hreleased, hslots, htable⟩ := ih
    exact ⟨⟨log, hbacked.reads, hbacked.frontier, hbacked.first, hbacked.committed,
      hbacked.aligned, hbacked.attempt, hbacked.offer, hbacked.parked⟩, hgenesis, hreleased,
      hslots, htable⟩
  | step h input hin ih =>
    obtain ⟨hstorable, hcut⟩ := hallowed _ _ hin
    exact ih.step hstorable hcut
  | reclaim h hreclaims ih => exact ih.reclaim hreclaims

end Replica

end UvrrCore
