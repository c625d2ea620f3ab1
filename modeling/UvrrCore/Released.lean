import UvrrCore.Life

/-!
# The released operations

Over a whole life a replica releases the client operations of the entries it commits, as its
journal held them when they were committed, in slot order and each once: one list of entries, in
slot order, is both what it committed and what it released.

The suffix rules take a suffix for a run of consecutive slots, and lose the count behind the last
slot of the slot space. A replica one short of it can be offered a suffix whose next entry is a
slot it holds already: nothing is installed, and the operation released is not the one journaled.
-/

namespace UvrrCore

def Effect.appliedSlot : Effect → Option Nat
  | .apply slot _ _ => some slot
  | .send _ _ _ | .persist _ | .adminResponse _ => none

namespace Replica

variable {J : Type} [Journal J]

/-- **What is released is what was committed**: the client operations of the committed entries,
which have the slots behind the genesis ones up to the committed frontier. -/
structure ReleasesCommitted (r : Replica J) (ranges : List (List LogEntry))
    (released : List Effect) : Prop where
  applied : released = ranges.flatten.filterMap LogEntry.applied
  slots : ranges.flatten.map LogEntry.slot =
    List.range' (initSlot + 1) (r.progress.committed - initSlot)
  ascending : (released.filterMap Effect.appliedSlot).Pairwise (· < ·)
  within : ∀ slot ∈ released.filterMap Effect.appliedSlot,
    initSlot < slot ∧ slot ≤ r.progress.committed

/-- Entries are released at their slots. -/
theorem appliedSlot_sublist (entries : List LogEntry) :
    ((entries.filterMap LogEntry.applied).filterMap Effect.appliedSlot).Sublist
      (entries.map LogEntry.slot) := by
  induction entries with
  | nil => exact .slnil
  | cons entry rest ih =>
    rw [List.map_cons, List.filterMap_cons]
    cases hpayload : entry.payload with
    | operation id payload =>
      have happlied : entry.applied = some (.apply entry.slot id payload) := by
        unfold LogEntry.applied
        rw [hpayload]
      simp only [happlied, List.filterMap_cons, Effect.appliedSlot]
      exact ih.cons_cons _
    | system op =>
      have happlied : entry.applied = none := by
        unfold LogEntry.applied
        rw [hpayload]
      simp only [happlied]
      exact ih.cons _

/-- The entries of an idle client. -/
def clientEntry (slot : Nat) : LogEntry where
  slot := slot
  era := 1
  payload := .operation { msb := 0, lsb := 0 } []

/-- The next slot prepared by the primary of the first view, with nothing newly committed. -/
def prepareNext (slot : Nat) : TimedInput where
  time := 1
  event := .peer 1
    { header := { view := { era := 1, view := 0 }, slot := slot }
      body := .prepare (clientEntry slot) initSlot }

/-- The third node of a fresh cluster. -/
def freshThird : Option (Replica SegmentedLog) :=
  (provision 3 [1, 2, 3] weightedMajority (SegmentedLog.withTailCapacity 4) .volatile
    { primaryTimeout := 0, viewChangeBudget := 1000 }).toOption

theorem prepareNext_storable (slot : Nat) : (prepareNext slot).Storable := by
  intro sender message hevent
  cases hevent
  trivial

/-- **Every life without an offer at the last slot releases what it commits.** -/
theorem life_releases_committed [LawfulJournal J] {r : Replica J} {ranges : List (List LogEntry)}
    {released : List Effect} (h : Life (fun _ input => input.Storable) r ranges released) :
    r.ReleasesCommitted ranges released := by
  have hlived : Lived False r ranges released :=
    h.lived fun _ _ hstorable => ⟨hstorable, fun hfalse => hfalse.elim⟩
  have hsublist := appliedSlot_sublist ranges.flatten
  rw [← hlived.released, hlived.slots] at hsublist
  refine ⟨hlived.released, hlived.slots, List.Pairwise.sublist hsublist List.pairwise_lt_range', ?_⟩
  intro slot hmem
  have hin := hsublist.subset hmem
  rw [List.mem_range'_1] at hin
  omega

/-- The frontier the primary of the first view announces. -/
def commitThrough (slot : Nat) : TimedInput where
  time := 1
  event := .peer 1 { header := { view := { era := 1, view := 0 }, slot := slot }, body := .commit slot }

theorem commitThrough_storable (slot : Nat) : (commitThrough slot).Storable := by
  intro sender message hevent
  cases hevent
  trivial

/-- An operation is prepared and committed at a fresh backup. -/
theorem life_releases_committed_first : ∃ (r : Replica SegmentedLog) (ranges : List (List LogEntry)),
    r.stability = .volatile ∧ r.progress.committed = 3 ∧
      r.ReleasesCommitted ranges [.apply 3 { msb := 0, lsb := 0 } []] := by
  have hrun : (freshThird.map fun fresh =>
      let r := (fresh.step (prepareNext 3)).1
      ((fresh.step (prepareNext 3)).2.filter Effect.isApply,
        (r.step (commitThrough 3)).2.filter Effect.isApply,
        (r.step (commitThrough 3)).1.stability, (r.step (commitThrough 3)).1.progress.committed)) =
      some ([], [.apply 3 { msb := 0, lsb := 0 } []], .volatile, 3) := by decide +kernel
  obtain ⟨fresh, hfresh, hrun⟩ := Option.map_eq_some_iff.mp hrun
  simp only [Prod.mk.injEq] at hrun
  obtain ⟨hprepared, hcommitted, hvolatile, hfrontier⟩ := hrun
  have hlife : Life (fun _ input => input.Storable) _ _ _ :=
    ((Life.provision (toOption_eq_some hfresh)).step (prepareNext 3)
      (prepareNext_storable 3)).step (commitThrough 3) (commitThrough_storable 3)
  rw [hprepared, hcommitted] at hlife
  exact ⟨_, _, hvolatile, hfrontier, life_releases_committed hlife⟩

/-! ### A suffix that loses the count -/

/-- The table of a fresh cluster of three. -/
def genesisThree : EraTable := (genesisTable [1, 2, 3]).toOption.getD EraTable.genesis

/-- A record that serves a view of the first era. -/
def servingRecord (view accepted committed revision : Nat) : ProgressData where
  current := { era := 1, view := view }
  retained := { era := 1, view := view }
  status := .normal
  accepted := accepted
  committed := committed
  applied := initSlot
  checkpoint := Slot.none
  revision := revision
  config := genesisThree
  fault := none

theorem servingRecord_check {view accepted committed revision : Nat} (hlow : initSlot ≤ committed)
    (hhigh : committed ≤ accepted) :
    (servingRecord view accepted committed revision).check = .ok () := by
  refine ProgressData.check_eq_ok.mpr ⟨⟨Nat.zero_le _, hlow, hhigh⟩, rfl, ?_⟩
  have hera : genesisThree.eraOfSlot accepted = some 1 := by
    unfold EraTable.eraOfSlot
    rw [if_pos (show genesisThree.current.establishedBy ≤ accepted from
      (show genesisThree.current.establishedBy = initSlot by decide).trans_le (hlow.trans hhigh))]
    decide
  unfold ProgressData.EraDiscipline
  simp only [servingRecord, hera]
  exact .inl trivial

theorem servingRecord_legal {view view' accepted accepted' committed committed' revision : Nat}
    {kind : InputKind} (hview : view' = view ∨ view < view') (haccepted : accepted ≤ accepted')
    (hcommitted : committed ≤ committed') (hlow : initSlot ≤ committed')
    (hhigh : committed' ≤ accepted') (hrevision : revision + 1 < u64Bound)
    (hkind : rule7HeaderSlotViolated kind = false) :
    legal (servingRecord view accepted committed revision)
      (servingRecord view' accepted' committed' (revision + 1)) kind = none := by
  have hcheck : (servingRecord view' accepted' committed' (revision + 1)).check = .ok () :=
    servingRecord_check hlow hhigh
  have hchecked := ProgressData.check_eq_ok.mp hcheck
  refine legal_eq_none_iff.mpr ⟨rfl, ?_, ?_, ?_, ?_, ?_, hkind⟩
  · unfold rule1FrontiersViolated
    rw [if_neg (not_not.mpr hchecked.1), if_neg]
    · rw [Bool.and_eq_false_iff, decide_eq_false_iff_not]
      exact .inl (Nat.not_lt.mpr haccepted)
    · show ¬(committed' < committed ∨ initSlot < initSlot ∨ Slot.none < Slot.none)
      omega
  · unfold rule2ViewSuccessionViolated
    rcases hview with rfl | hlt
    · exact if_pos rfl
    · split
      · rfl
      · refine if_pos ?_
        show (decide (view < view') && _) = true
        simp only [hlt, decide_true, Bool.true_and]
        rfl
  · unfold rule3RetainedViolated
    split
    · rfl
    · rw [if_pos ⟨rfl, rfl⟩]
  · unfold rule4RevisionViolated
    simp [servingRecord, hrevision]
  · unfold rule6EraSlotViolated
    simpa using hchecked.2.2

/-- A backup that journaled the idle client's entries up to a slot. -/
structure Fed (r : Replica SegmentedLog) (slot : Nat) : Prop where
  own : r.own = 3
  record : r.progress.toProgressData = servingRecord 0 slot initSlot (slot - initSlot)
  volatile : r.stability = .volatile
  unparked : r.parked = none
  frontier : Journal.accepted r.journal = some slot
  held : ∀ s, initSlot < s → s ≤ slot → Journal.get r.journal s = some (clientEntry s)

section FedStanding

variable {r : Replica SegmentedLog} {slot : Nat}

theorem Fed.current (h : Fed r slot) : r.progress.current = { era := 1, view := 0 } := by
  rw [h.record]
  rfl

theorem Fed.status (h : Fed r slot) : r.progress.status = .normal := by
  rw [h.record]
  rfl

theorem Fed.accepted (h : Fed r slot) : r.progress.accepted = slot := by
  rw [h.record]
  rfl

theorem Fed.committed (h : Fed r slot) : r.progress.committed = initSlot := by
  rw [h.record]
  rfl

theorem Fed.applied (h : Fed r slot) : r.progress.applied = initSlot := by
  rw [h.record]
  rfl

theorem Fed.revision (h : Fed r slot) : r.progress.revision = slot - initSlot := by
  rw [h.record]
  rfl

theorem Fed.config (h : Fed r slot) : r.progress.config = genesisThree := by
  rw [h.record]
  rfl

theorem Fed.fault (h : Fed r slot) : r.progress.fault = none := by
  rw [h.record]
  rfl

theorem Fed.journaled (h : Fed r slot) :
    (Journal.accepted r.journal).getD Slot.none = r.progress.accepted := by
  rw [h.frontier, h.accepted]
  rfl

/-- Each of the three nodes has its weight, so that no message of theirs is foreign. -/
theorem Fed.admits (h : Fed r slot) {sender : Nat} (hmember : sender ∈ [1, 2, 3])
    (message : Message) : ¬r.foreignSender sender message = true := by
  have hknown : r.committedWeight sender = some 1 := by
    unfold committedWeight
    rw [h.config]
    revert sender
    decide
  simp [foreignSender, hknown]

end FedStanding

/-- The log takes the next slot unless it is the last. -/
theorem accept_next {journal : SegmentedLog} {slot : Nat} {entry : LogEntry}
    (hfrontier : Journal.accepted journal = some slot) (hentry : entry.slot = slot + 1)
    (hbound : slot + 2 < u64Bound) : ∃ journal', Journal.accept journal [entry] = .ok journal' := by
  have hdata : ∃ data, journal.toLogData.accept [entry] = .ok data := by
    have hlast : journal.toLogData.accepted = some slot := hfrontier
    have hnext : Slot.next slot = some (slot + 1) := Slot.next_eq_some.mpr ⟨by omega, rfl⟩
    have hafter : Slot.next (slot + 1) = some (slot + 2) := Slot.next_eq_some.mpr ⟨hbound, rfl⟩
    unfold LogData.accept LogData.expectedNext
    simp only [List.getLast?_singleton, hlast, hnext, checkRun, hentry, Nat.lt_irrefl, hafter,
      if_false, ne_eq, not_true_eq_false]
    exact ⟨_, rfl⟩
  obtain ⟨data, hdata⟩ := hdata
  show ∃ journal', SegmentedLog.accept journal [entry] = .ok journal'
  unfold SegmentedLog.accept
  split
  · rename_i error herror
    rw [hdata] at herror
    cases herror
  · exact ⟨_, rfl⟩

omit [Journal J] in
theorem nextRecord_of_check {r : Replica J} {data : ProgressData}
    (hrevision : r.progress.revision + 1 < u64Bound)
    (hcheck : ({ data with
      checkpoint := r.progress.checkpoint, revision := r.progress.revision + 1
      fault := none } : ProgressData).check = .ok ()) :
    ∃ candidate, r.nextRecord data = .ok candidate := by
  obtain ⟨candidate, hcandidate, -⟩ := Progress.reconstitute_of_check hcheck
  unfold nextRecord
  rw [if_pos hrevision, hcandidate]
  exact ⟨candidate, rfl⟩

/-- A message at a replica that plans. -/
theorem plan_peer {r : Replica J} (hfault : r.progress.fault = none)
    (hfrontier : (Journal.accepted r.journal).getD Slot.none = r.progress.accepted)
    (hunparked : r.parked = none) {sender time : Nat} {message : Message} :
    r.plan { time := time, event := .peer sender message } =
      r.planPeer sender message time (.peerMessage message.tag message.header.slot) := by
  unfold Replica.plan refuseIfParked
  rw [hfault]
  simp only
  rw [if_neg (not_not.mpr hfrontier), hunparked]
  rfl

/-- The fed entry commits nothing. -/
theorem Fed.folds_nothing {r : Replica SegmentedLog} {slot : Nat} (h : Fed r slot) :
    r.foldCommitted [clientEntry (slot + 1)] initSlot initSlot true =
      .ok { config := genesisThree, covered := initSlot, stopped := false, bump := none } := by
  unfold foldCommitted
  simp only [Nat.sub_self, foldSlotsThrough, h.config, h.status, if_true, Option.filter_some,
    bne_self_eq_false]
  rfl

/-- The plan that accepts the next entry and acknowledges it. -/
def feedPlan (r : Replica SegmentedLog) (slot : Nat) (candidate : Progress) : PlannedTransition :=
  r.candidatePlan candidate (.accept [clientEntry (slot + 1)])
    [prepareOk { era := 1, view := 0 } 1 (slot + 1)] (.peerMessage .prepare (slot + 1)) false

theorem Fed.next {r : Replica SegmentedLog} {slot : Nat} (h : Fed r slot) {candidate : Progress}
    (hcandidate : r.candidateWith .normal (slot + 1) initSlot initSlot genesisThree none =
      .ok candidate) :
    r.planNextPrepare 1 { era := 1, view := 0 } (clientEntry (slot + 1)) initSlot .normal
      (.peerMessage .prepare (slot + 1)) = .ok (r.feedPlan slot candidate) := by
  have hfrontier : max initSlot (min initSlot (clientEntry (slot + 1)).slot) = initSlot :=
    max_eq_left (min_le_left _ _)
  have hera : ¬(initSlot < (clientEntry (slot + 1)).slot ∧
      genesisThree.current.era < (clientEntry (slot + 1)).era) := by
    rintro ⟨-, hlt⟩
    have hlater : genesisThree.current.era < 1 := hlt
    exact absurd hlater (by decide)
  unfold planNextPrepare
  simp only [h.committed, hfrontier, h.folds_nothing]
  rw [show r.uncommittedRefusal genesisThree initSlot (clientEntry (slot + 1)) = .ok none from rfl]
  show (if _ then _ else _) = _
  rw [if_neg hera]
  unfold appliedWalk applyEffects
  rw [h.applied, Nat.sub_self]
  show (do
    let candidate ← r.candidateWith .normal (slot + 1) initSlot initSlot genesisThree none
    let applies ← applyRange (merged r.journal []) 0 initSlot
    return _) = _
  rw [hcandidate, h.current]
  rfl

theorem Fed.prepares {r : Replica SegmentedLog} {slot : Nat} (h : Fed r slot)
    (hbound : slot + 2 < u64Bound) (hprimary : r.primaryOf { era := 1, view := 0 } = some 1)
    {candidate : Progress}
    (hcandidate : r.candidateWith .normal (slot + 1) initSlot initSlot genesisThree none =
      .ok candidate) :
    r.planPrepare 1 { header := { view := { era := 1, view := 0 }, slot := slot + 1 }
                      body := .prepare (clientEntry (slot + 1)) initSlot }
      (clientEntry (slot + 1)) initSlot 1 (.peerMessage .prepare (slot + 1)) =
      .ok (r.feedPlan slot candidate) := by
  have hrecord : (genesisThree.record 1).isNone = false := by decide
  have hadopted : r.adoptedStatus { era := 1, view := 0 } = .normal :=
    adoptedStatus_normal h.status
  have hslot : (clientEntry (slot + 1)).slot = slot + 1 := rfl
  have hera : (clientEntry (slot + 1)).era = 1 := rfl
  have hfollows : Slot.next slot = some (slot + 1) := Slot.next_eq_some.mpr ⟨by omega, rfl⟩
  simp only [planPrepare, h.config, hrecord, hprimary, h.current, h.status, hadopted, h.accepted,
    hslot, hera, hfollows]
  simp
  exact h.next hcandidate

theorem Fed.plan {r : Replica SegmentedLog} {slot : Nat} (h : Fed r slot) (hle : initSlot ≤ slot)
    (hbound : slot + 2 < u64Bound) : ∃ plan, r.plan (prepareNext (slot + 1)) = .ok plan ∧
      plan.base = r.progress.revision ∧ plan.fault = none ∧
      plan.candidate.toProgressData = servingRecord 0 (slot + 1) initSlot (slot + 1 - initSlot) ∧
      plan.kind = .peerMessage .prepare (slot + 1) ∧ plan.journal = .accept [clientEntry (slot + 1)] ∧
      plan.effects.filter Effect.isApply = [] ∧ plan.bookkeeping.stalled = .unchanged := by
  have hprimary : r.primaryOf { era := 1, view := 0 } = some 1 := by
    unfold primaryOf
    rw [h.config]
    decide
  obtain ⟨candidate, hcandidate⟩ : ∃ candidate,
      r.candidateWith .normal (slot + 1) initSlot initSlot genesisThree none = .ok candidate := by
    have hchecked : (servingRecord 0 (slot + 1) initSlot (slot - initSlot + 1)).check = .ok () :=
      servingRecord_check (Nat.le_refl _) (by omega)
    refine nextRecord_of_check (by rw [h.revision]; omega) ?_
    rw [h.record]
    exact hchecked
  have hplanned : r.plan (prepareNext (slot + 1)) =
      .ok ((r.feedPlan slot candidate).withActivity 1) := by
    rw [prepareNext, plan_peer h.fault h.journaled h.unparked, planPeer,
      if_neg (h.admits (by decide) _)]
    show (do
      let plan ← r.planPrepare 1 _ (clientEntry (slot + 1)) initSlot 1
        (.peerMessage .prepare (slot + 1))
      return _ : Planned) = _
    rw [h.prepares hbound hprimary hcandidate]
    show Except.ok (if r.primaryLife 1 _ = true then _ else _) = _
    rw [if_pos]
    simp [primaryLife, h.current, hprimary]
  refine ⟨_, hplanned, rfl, rfl, ?_, rfl, rfl, rfl, rfl⟩
  show candidate.toProgressData = _
  rw [candidateWith_ok hcandidate]
  unfold recordWith
  rw [h.record]
  show servingRecord 0 (slot + 1) initSlot (slot - initSlot + 1) = _
  rw [show slot + 1 - initSlot = slot - initSlot + 1 by omega]

theorem Fed.step {r : Replica SegmentedLog} {slot : Nat} (h : Fed r slot) (hle : initSlot ≤ slot)
    (hbound : slot + 2 < u64Bound) : Fed (r.step (prepareNext (slot + 1))).1 (slot + 1) := by
  obtain ⟨plan, hplan, hbase, hfault, hdata, hkind, hmutation, -, -⟩ := h.plan hle hbound
  have hrevision : slot + 1 - initSlot = slot - initSlot + 1 := by omega
  have hlegal : legal r.progress.toProgressData plan.candidate.toProgressData plan.kind = none := by
    rw [h.record, hdata, hkind, hrevision]
    exact servingRecord_legal (.inl rfl) (Nat.le_succ _) (Nat.le_refl _) (Nat.le_refl _) (by omega)
      (by omega) (by simp [rule7HeaderSlotViolated, headerSlotRole, HeaderSlotRole.admits, Slot.none])
  obtain ⟨journal, hjournal⟩ :=
    accept_next h.frontier (show (clientEntry (slot + 1)).slot = slot + 1 from rfl) hbound
  have hmutated : mutateJournal r.journal plan.journal = .ok journal := by
    rw [hmutation]
    exact hjournal
  rw [step_installs hplan hbase hfault hlegal (.inr h.volatile), hmutated]
  obtain ⟨hrun, hfrontier, -, hget⟩ := LawfulJournal.accept_ok h.frontier hjournal
  refine ⟨h.own, hdata, h.volatile, rfl, hfrontier, fun s hlow hhigh => ?_⟩
  show Journal.get journal s = _
  rw [hget]
  split
  · rename_i hheld
    exact h.held s hlow hheld
  · rw [show s = slot + 1 by omega]
    unfold entryAt
    simp [clientEntry]

/-- A readable range applies all of its operations. -/
theorem applyRange_total {read : Nat → Option LogEntry} {left slot : Nat}
    (h : ∀ s, slot < s → s ≤ slot + left → ∃ entry, read s = some entry) :
    ∃ effects, applyRange read left slot = .ok effects ∧
      ∀ s entry id payload, slot < s → s ≤ slot + left → read s = some entry →
        entry.payload = .operation id payload → .apply s id payload ∈ effects := by
  induction left generalizing slot with
  | zero => exact ⟨[], rfl, fun s entry id payload hlow hhigh => by omega⟩
  | succ left ih =>
    obtain ⟨rest, hrest, hmem⟩ :=
      ih (show ∀ s, slot + 1 < s → s ≤ slot + 1 + left → ∃ entry, read s = some entry from
        fun s hlow hhigh => h s (by omega) (by omega))
    obtain ⟨first, hfirst⟩ := h (slot + 1) (by omega) (by omega)
    simp only [applyRange, hfirst]
    cases hpayload : first.payload with
    | operation id payload =>
      refine ⟨_, by rw [hrest]; rfl, fun s entry id' payload' hlow hhigh hread hentry => ?_⟩
      by_cases heq : s = slot + 1
      · subst heq
        rw [hfirst] at hread
        cases hread
        rw [hpayload] at hentry
        cases hentry
        exact List.mem_cons_self
      · exact List.mem_cons_of_mem _ (hmem s entry id' payload' (by omega) (by omega) hread hentry)
    | system op =>
      refine ⟨_, by rw [hrest]; rfl, fun s entry id' payload' hlow hhigh hread hentry => ?_⟩
      by_cases heq : s = slot + 1
      · subst heq
        rw [hfirst] at hread
        cases hread
        rw [hpayload] at hentry
        cases hentry
      · exact hmem s entry id' payload' (by omega) (by omega) hread hentry

/-- The slot below the last one. -/
def lastButOne : Nat := u64Bound - 2

/-- The other operation, offered where the idle client's is held. -/
def otherEntry : LogEntry where
  slot := lastButOne
  era := 1
  payload := .operation { msb := 0, lsb := 1 } []

/-- A suffix whose first entry takes the last slot and whose second one is held already. -/
def wrappedSuffix : List LogEntry := [clientEntry (u64Bound - 1), otherEntry]

def wrappedMessage : Message where
  header := { view := { era := 1, view := 1 }, slot := lastButOne }
  body := .startView wrappedSuffix lastButOne lastButOne
    { op := .init [1, 2, 3], committedAt := initSlot }

/-- The view after the first one, announced with that suffix. -/
def announceWrapped : TimedInput := { time := 1, event := .peer 2 wrappedMessage }

section Wrapping

variable {r : Replica SegmentedLog}

/-- The suffix lies over the journal at its second entry only. -/
theorem Fed.reads_wrapped (h : Fed r lastButOne) {s : Nat} (hlow : initSlot < s)
    (hhigh : s ≤ lastButOne) : ClientAt (merged r.journal wrappedSuffix) s := by
  by_cases heq : s = lastButOne
  · subst heq
    exact ⟨otherEntry, _, _, rfl, rfl⟩
  · have hnone : entryAt wrappedSuffix s = none := by
      have hfirst : (clientEntry (u64Bound - 1)).slot ≠ s := by
        show u64Bound - 1 ≠ s
        unfold lastButOne at hhigh
        omega
      have hsecond : otherEntry.slot ≠ s := fun hslot => heq hslot.symm
      unfold entryAt wrappedSuffix
      rw [List.find?_cons_of_neg, List.find?_cons_of_neg, List.find?_nil]
      · rw [beq_iff_eq]
        exact hsecond
      · rw [beq_iff_eq]
        exact hfirst
    refine ⟨clientEntry s, _, _, ?_, rfl⟩
    unfold merged
    rw [hnone]
    exact h.held s hlow hhigh

/-- The last slot is past the frontier and the next entry is held: nothing is to be installed. -/
theorem Fed.checks_wrapped (h : Fed r lastButOne) :
    r.checkSuffix wrappedSuffix lastButOne lastButOne Slot.none = .install .none := by
  unfold checkSuffix wrappedSuffix
  simp only [h.accepted]
  rw [if_neg (by decide)]
  rfl

theorem Fed.walks_wrapped (h : Fed r lastButOne) :
    r.appliedWalk wrappedSuffix initSlot lastButOne = .ok initSlot := by
  obtain ⟨entry, id, payload, hentry, hpayload⟩ :=
    h.reads_wrapped (Nat.lt_succ_self initSlot) (by decide)
  unfold appliedWalk
  rw [show lastButOne - initSlot = (lastButOne - initSlot - 1) + 1 from rfl, systemWalk, hentry]
  simp only [hpayload, Payload.isSystem]
  rfl

theorem Fed.folds_wrapped (h : Fed r lastButOne) :
    r.foldCommitted wrappedSuffix initSlot lastButOne false =
      .ok { config := genesisThree, covered := lastButOne, stopped := false, bump := none } := by
  have hrest : foldRest (merged r.journal wrappedSuffix) (r.runFuel wrappedSuffix)
      r.progress.current lastButOne false (r.folding initSlot) =
      foldRest (merged r.journal wrappedSuffix) (r.runFuel wrappedSuffix) r.progress.current
        lastButOne false { r.folding initSlot with covered := lastButOne } :=
    foldRest_operations lastButOne (show initSlot ≤ lastButOne by decide) (Nat.le_refl _)
      fun _ hlow hhigh => h.reads_wrapped hlow hhigh
  have hdone : foldRest (merged r.journal wrappedSuffix) (r.runFuel wrappedSuffix)
      r.progress.current lastButOne false { r.folding initSlot with covered := lastButOne } =
      .ok { r.folding initSlot with covered := lastButOne } :=
    foldSlotsThrough_done (Nat.le_refl _)
  rw [foldCommitted_eq]
  show Except.map _ (foldRest _ _ _ _ _ (r.folding initSlot)) = _
  rw [hrest, hdone]
  unfold folding
  rw [h.config, if_pos h.status]
  show Except.ok _ = _
  simp

/-- The plan that installs the announced view and releases what it commits. -/
def wrappedPlan (r : Replica SegmentedLog) (candidate : Progress) (effects : List Effect) :
    PlannedTransition :=
  (r.candidatePlan candidate .none effects (.peerMessage .startView lastButOne)
    false).withBookkeeping
      { viewChange := .clear, stalled := .clear, planned := .clear, activity := some 1 }

theorem Fed.starts_wrapped (h : Fed r lastButOne) {candidate : Progress} {effects : List Effect}
    (hcandidate : r.installCandidate { era := 1, view := 1 } lastButOne lastButOne initSlot
      genesisThree = .ok candidate)
    (heffects : r.applyEffectsMerged wrappedSuffix initSlot lastButOne = .ok effects) :
    r.planStartView 2 wrappedMessage wrappedSuffix lastButOne lastButOne
      { op := .init [1, 2, 3], committedAt := initSlot } 1 (.peerMessage .startView lastButOne) =
      .ok (r.wrappedPlan candidate effects) := by
  have hprimary : r.primaryOf { era := 1, view := 1 } = some 2 := by
    unfold primaryOf
    rw [h.config]
    decide
  have hcheckpoint : r.progress.checkpoint = Slot.none := by
    rw [h.record]
    rfl
  have hrecord : genesisThree.record 1 = some genesisThree.current := by decide
  have hshape : suffixShapeOk wrappedSuffix lastButOne = true := by decide
  have hproof : eraProofOk genesisThree.current
      { op := .init [1, 2, 3], committedAt := initSlot } = true := by decide
  have hahead : ({ era := 1, view := 0 } : Ballot) < { era := 1, view := 1 } := by decide
  have hforward : ¬lastButOne < initSlot := by decide
  unfold planStartView
  simp only [wrappedMessage, h.config, hrecord, hprimary, h.current, h.committed, hcheckpoint,
    h.checks_wrapped, hshape, hproof, hahead, hforward, ne_eq, not_true_eq_false, if_false,
    true_or, Nat.lt_irrefl, Bool.true_eq_false, or_self]
  simp only [h.applied, h.walks_wrapped, bind, Except.bind, h.folds_wrapped, hcandidate, heffects]
  rfl

/-- **The announced view releases the other operation** and leaves the journal as it was. -/
theorem Fed.wraps (h : Fed r lastButOne) :
    (r.step announceWrapped).1.stability = .volatile ∧
      (r.step announceWrapped).1.journal = r.journal ∧
      (r.step announceWrapped).1.progress.committed = lastButOne ∧
      .apply lastButOne { msb := 0, lsb := 1 } [] ∈ (r.step announceWrapped).2 := by
  obtain ⟨candidate, hcandidate⟩ : ∃ candidate, r.installCandidate { era := 1, view := 1 }
      lastButOne lastButOne initSlot genesisThree = .ok candidate := by
    have hchecked : (servingRecord 1 lastButOne lastButOne (lastButOne - initSlot + 1)).check =
        .ok () := servingRecord_check (by decide) (Nat.le_refl _)
    refine nextRecord_of_check (by rw [h.revision]; decide) ?_
    rw [h.record]
    exact hchecked
  have hdata : candidate.toProgressData =
      servingRecord 1 lastButOne lastButOne (lastButOne - initSlot + 1) := by
    rw [installCandidate_ok hcandidate]
    unfold recordServing
    rw [h.record]
    rfl
  have hreadable : ∀ s, initSlot < s → s ≤ initSlot + (lastButOne - initSlot) →
      ∃ entry, merged r.journal wrappedSuffix s = some entry := by
    intro s hlow hhigh
    obtain ⟨entry, id, payload, hentry, -⟩ := h.reads_wrapped hlow (by omega)
    exact ⟨entry, hentry⟩
  obtain ⟨effects, heffects, hmem⟩ := applyRange_total hreadable
  have hplanned : r.plan announceWrapped = .ok (r.wrappedPlan candidate effects) := by
    rw [announceWrapped, plan_peer h.fault h.journaled h.unparked, planPeer,
      if_neg (h.admits (by decide) _)]
    show (do
      let plan ← r.planStartView 2 wrappedMessage wrappedSuffix lastButOne lastButOne
        { op := .init [1, 2, 3], committedAt := initSlot } 1 (.peerMessage .startView lastButOne)
      return _ : Planned) = _
    rw [h.starts_wrapped hcandidate heffects]
    rfl
  have hlegal : legal r.progress.toProgressData
      (r.wrappedPlan candidate effects).candidate.toProgressData
      (r.wrappedPlan candidate effects).kind = none := by
    show legal _ candidate.toProgressData _ = none
    rw [h.record, hdata]
    exact servingRecord_legal (.inr Nat.zero_lt_one) (Nat.le_refl _) (by decide) (by decide)
      (Nat.le_refl _) (by decide) rfl
  rw [step_installs hplanned rfl rfl hlegal (.inr h.volatile)]
  refine ⟨h.volatile, rfl, ?_, hmem lastButOne otherEntry _ _ (by decide) (by decide) rfl rfl⟩
  show candidate.committed = lastButOne
  rw [hdata]
  rfl

end Wrapping

/-- The first prepare brings the fresh backup into the view. -/
theorem fed_first : ∃ r ranges released,
    Life (fun _ input => input.Storable) r ranges released ∧ Fed r (initSlot + 1) := by
  have hrun : (freshThird.map fun fresh =>
      let r := (fresh.step (prepareNext 3)).1
      decide (r.own = 3 ∧ r.progress.toProgressData = servingRecord 0 3 initSlot 1 ∧
        r.stability = .volatile ∧ r.parked.isNone = true ∧ Journal.accepted r.journal = some 3 ∧
        Journal.get r.journal 3 = some (clientEntry 3))) = some true := by decide +kernel
  obtain ⟨fresh, hfresh, hrun⟩ := Option.map_eq_some_iff.mp hrun
  obtain ⟨hown, hrecord, hvolatile, hunparked, hfrontier, hheld⟩ := of_decide_eq_true hrun
  refine ⟨_, _, _, (Life.provision (toOption_eq_some hfresh)).step (prepareNext 3)
    (prepareNext_storable 3), hown, hrecord, hvolatile, Option.isNone_iff_eq_none.mp hunparked,
    hfrontier, fun s hlow hhigh => ?_⟩
  rw [show s = 3 by unfold initSlot at hlow hhigh; omega]
  exact hheld

/-- Prepared slot by slot, the backup gets as far as its log takes entries. -/
theorem fed_life (count : Nat) (hbound : initSlot + 1 + count + 1 < u64Bound) :
    ∃ r ranges released, Life (fun _ input => input.Storable) r ranges released ∧
      Fed r (initSlot + 1 + count) := by
  induction count with
  | zero => exact fed_first
  | succ count ih =>
    obtain ⟨r, ranges, released, hlife, hfed⟩ := ih (by omega)
    exact ⟨_, _, _, hlife.step (prepareNext (initSlot + 1 + count + 1)) (prepareNext_storable _),
      hfed.step (by omega) (by omega)⟩

/-- The other operation is not what the journal holds. -/
theorem Fed.not_applied {r : Replica SegmentedLog} (h : Fed r lastButOne) (start through : Nat) :
    Effect.apply lastButOne { msb := 0, lsb := 1 } [] ∉
      (committedIn r.journal start through).filterMap LogEntry.applied := by
  intro hmem
  obtain ⟨entry, hentry, happlied⟩ := List.mem_filterMap.mp hmem
  obtain ⟨slot, -, hget⟩ := List.mem_filterMap.mp hentry
  unfold LogEntry.applied at happlied
  split at happlied
  · rename_i id payload hpayload
    rw [Option.some.injEq, Effect.apply.injEq] at happlied
    obtain ⟨hslot, hid, -⟩ := happlied
    -- the journal holds the idle client's entry there
    have hheld := h.held lastButOne (by decide) (Nat.le_refl _)
    rw [← hslot, LawfulJournal.get_slot hget, hget, Option.some.injEq] at hheld
    rw [hheld] at hpayload
    rw [← (Payload.operation.inj hpayload).1] at hid
    exact absurd hid (by decide)
  · cases happlied

/-- **An operation is released that the journal does not hold.** -/
theorem wrapped_suffix_releases_other : ∃ (r : Replica SegmentedLog) (ranges : List (List LogEntry))
    (released : List Effect), Life (fun _ _ => True) r ranges released ∧ r.stability = .volatile ∧
      ¬r.ReleasesCommitted ranges released := by
  obtain ⟨r, ranges, released, hlife, hfed⟩ := fed_life (u64Bound - 5) (by decide)
  have hfed' : Fed r lastButOne := hfed
  obtain ⟨hvolatile, hjournal, hcommitted, hmem⟩ := hfed'.wraps
  refine ⟨_, _, _, (hlife.mono fun _ _ _ => trivial).step announceWrapped trivial, hvolatile,
    fun hreleases => ?_⟩
  have hnothing : ranges.flatten = [] := by
    have hlived : Lived False r ranges released :=
      hlife.lived fun _ _ hstorable => ⟨hstorable, fun hfalse => hfalse.elim⟩
    have hslots := hlived.slots
    rw [show r.progress.committed = initSlot by rw [hfed'.record]; rfl] at hslots
    exact List.map_eq_nil_iff.mp hslots
  have hreleased : Effect.apply lastButOne { msb := 0, lsb := 1 } [] ∈
      released ++ (r.step announceWrapped).2.filter Effect.isApply :=
    List.mem_append_right _ (List.mem_filter.mpr ⟨hmem, rfl⟩)
  rw [hreleases.applied, List.flatten_append, hnothing, List.nil_append, List.flatten_singleton,
    hjournal] at hreleased
  exact hfed'.not_applied _ _ hreleased

end Replica

end UvrrCore
