import UvrrCore.Cluster
import UvrrCore.InStep

/-!
# Mutations a journal refuses

A plan's mutation is worked out from the record and from what the journal reads back; the journal
checks it against the window it retains, which the host's reclamations move on.

* `Restates`: a shorter history offered from beneath that window, and held as offered within it.
* `Careful`: a replica that was never told to install a view with such a history, has slots left,
  and whose host reclaims nothing from under a parked install.
* `mutation_taken`: the journal of a careful replica takes what is planned.
-/

namespace UvrrCore

namespace Replica

variable {r : Replica SegmentedLog}

/-! ### What the check lets through -/

/-- **The offer restates what was reclaimed**: it ends below the local frontier, begins below what
the journal retains, and is held as offered from there on. -/
structure Restates (r : Replica SegmentedLog) (suffix : List LogEntry) (accepted : Nat) : Prop where
  shorter : accepted < r.progress.accepted
  below : ∃ first rest, suffix = first :: rest ∧ first.slot < (Journal.retained r.journal).1
  held : ∀ entry ∈ suffix, Journal.get r.journal entry.slot = some entry ∨
    (Journal.get r.journal entry.slot = none ∧ entry.slot ≤ r.progress.checkpoint)

/-- **What restates is refused**: the check answers with an install of all of it, from below what
the journal retains. -/
theorem Restates.refused {suffix : List LogEntry} {accepted : Nat} (h : r.Restates suffix accepted)
    (hfrontier : Journal.accepted r.journal = some r.progress.accepted) (committed : Nat) :
    ∃ start, r.checkSuffix suffix accepted committed r.progress.checkpoint =
        .install (.installSuffix start suffix) ∧
      ∀ journal, mutateJournal r.journal (.installSuffix start suffix) ≠ .ok journal := by
  obtain ⟨first, rest, rfl, hbelow⟩ := h.below
  have := r.progress.checkpoint_le_applied
  have := r.progress.applied_le_committed
  have := r.progress.committed_le_accepted
  refine ⟨first.slot, checkSuffix_shorter (SegmentedLog.accepted_bound hfrontier).2 h.shorter
    fun entry hmem => ⟨?_, h.held entry hmem⟩, fun journal htaken => ?_⟩
  · rcases h.held entry hmem with hheld | ⟨-, hle⟩
    · obtain ⟨frontier, hend, hle⟩ := LawfulJournal.get_le hheld
      rw [hfrontier] at hend
      cases hend
      exact hle
    · omega
  · have := SegmentedLog.installSuffix_retained htaken
    omega

/-- **The mutation of a checked offer is taken**, provided that an offer held as it is, and shorter
than the journal, begins where the journal retains it. -/
theorem checkSuffix_taken {suffix : List LogEntry} {accepted committed discharged : Nat}
    {mutation : JournalMutation}
    (hfrontier : Journal.accepted r.journal = some r.progress.accepted)
    (hshaped : Shaped suffix accepted) (hstorable : ∀ entry ∈ suffix, entry.slot + 1 < u64Bound)
    (hbase : ∀ first rest, suffix = first :: rest → accepted < r.progress.accepted →
      (∀ entry ∈ suffix, PassedOver r.journal r.progress.accepted discharged entry) →
        (Journal.retained r.journal).1 ≤ first.slot)
    (h : r.checkSuffix suffix accepted committed discharged = .install mutation) :
    ∃ journal, mutateJournal r.journal mutation = .ok journal := by
  obtain ⟨-, -, hrun, hend⟩ := firstSlot_of_shaped hshaped
  have hlast : ∀ entry ∈ suffix, accepted + 1 < u64Bound := by
    intro entry hmem
    have hlastEq := List.getLast?_eq_some_getLast (List.ne_nil_of_mem hmem)
    have := hrun.getLast?_slot hlastEq
    have := hstorable _ (List.getLast_mem (List.ne_nil_of_mem hmem))
    omega
  rcases checkSuffix_cases hfrontier (.of_shaped hshaped) h with
    ⟨rfl, -⟩ | ⟨start, rfl, ⟨entry, hmem, hentry⟩, hle, hreach, hret⟩ |
    ⟨first, rest, hsuffix, rfl, hshorter, hreach, hwhy⟩
  · exact ⟨_, rfl⟩
  · have hlow := (hrun.mem_slot hmem).1
    have hbound := hlast entry hmem
    rw [hentry] at hlow
    rw [dropWhile_slot_ne hrun hlow]
    refine (SegmentedLog.installSuffix_isOk_iff hfrontier hreach).mpr ⟨hret, ?_, ?_, ?_⟩
    · intro hnil
      have := List.drop_eq_nil_iff.mp hnil
      omega
    · have := hrun.drop (start - firstSlot suffix accepted) (by omega)
      rwa [Nat.add_sub_cancel' hlow] at this
    · rw [List.length_drop]
      omega
  · have hmem : first ∈ suffix := by rw [hsuffix]; exact List.mem_cons_self
    have hbound := hlast first hmem
    have hfirst : firstSlot suffix accepted = first.slot := by rw [hsuffix]; rfl
    rw [hfirst] at hrun hend
    refine (SegmentedLog.installSuffix_isOk_iff hfrontier hreach).mpr
      ⟨?_, by rw [hsuffix]; exact List.cons_ne_nil _ _, hrun, by omega⟩
    rcases hwhy with hagreed | ⟨start, hlt, entry, hentry, rfl⟩
    · exact hbase first rest hsuffix hshorter (scanSuffix_agreed hagreed)
    · -- no offered slot is above the offer's own frontier
      have := (hrun.mem_slot hentry).2
      omega

/-- Suffixes whose entries a log could hold. -/
def Holdable (entries : List LogEntry) (accepted : Nat) : Prop :=
  Shaped entries accepted ∧ ∀ entry ∈ entries, entry.slot + 1 < u64Bound

/-- What a careful plan is drafted under. -/
def carefulGiven (r : Replica SegmentedLog) (input : TimedInput) : Given where
  shape := Holdable
  shorter := fun suffix accepted => ¬ r.Restates suffix accepted
  kept := Message.Storable
  uncut := False
  width := input.event.appends
  acknowledges := True

/-- **The journal takes a draft's mutation.** -/
theorem Rewrite.taken {input : TimedInput} {overlay : List LogEntry} {covered accepted : Nat}
    {mutation : JournalMutation}
    (h : r.Rewrite (r.carefulGiven input) overlay covered mutation accepted)
    (hfrontier : Journal.accepted r.journal = some r.progress.accepted)
    (hroom : r.progress.accepted + input.event.appends + 1 < u64Bound) :
    ∃ journal, mutateJournal r.journal mutation = .ok journal := by
  cases h with
  | kept hoverlay => exact ⟨_, rfl⟩
  | @appended entries last hoverlay hrun hlast hwidth =>
    have hne : entries ≠ [] := by
      intro hnil
      rw [hnil] at hlast
      cases hlast
    have hlength : entries.length ≤ input.event.appends := hwidth
    exact (SegmentedLog.accept_isOk_iff hfrontier hne).mpr ⟨hrun, by omega⟩
  | spliced hshape hcheck hdischarged hshorter =>
    refine checkSuffix_taken hfrontier hshape.1 hshape.2 (fun first rest hsuffix hlt hpassed => ?_)
      hcheck
    by_contra hbelow
    refine hshorter hlt ⟨hlt, ⟨first, rest, hsuffix, Nat.lt_of_not_le hbelow⟩, fun entry hmem => ?_⟩
    rcases (hpassed entry hmem).2 with hheld | ⟨hnone, hle⟩
    · exact .inl hheld
    · exact .inr ⟨hnone, hle.trans hdischarged⟩
  | @truncated mutation through committed hboot hcut hshape hwhole hshort hcheck =>
    unfold truncatedMutation at hcheck
    simp only at hcheck
    split at hcheck
    · cases hcheck
      exact ⟨_, rfl⟩
    · rename_i hpart
      obtain ⟨-, -, hrun, hend⟩ := firstSlot_of_shaped hshape.1
      have hreached : firstSlot overlay through ≤ covered := by
        by_contra hbeyond
        refine hpart (List.isEmpty_iff.mpr (List.filter_eq_nil_iff.mpr fun entry hmem => ?_))
        have := (hrun.mem_slot hmem).1
        simp only [decide_eq_true_eq]
        omega
      obtain ⟨hshaped, -⟩ := filter_shaped hshape.1 hshort.le hreached
      refine checkSuffix_taken hfrontier hshaped
        (fun entry hmem => hshape.2 entry (List.mem_of_mem_filter hmem))
        (fun first rest hsuffix _ hpassed => ?_) hcheck
      -- the offered part is compared with the journal alone, and its slots begin at the first one
      have hmem : first ∈ overlay.filter fun entry => decide (entry.slot ≤ covered) := by
        rw [hsuffix]
        exact List.mem_cons_self
      by_contra hbelow
      rcases (hpassed first hmem).2 with hheld | ⟨-, hle⟩
      · rw [LawfulJournal.get_lt_first (Nat.lt_of_not_le hbelow)] at hheld
        cases hheld
      · have hzero : first.slot = 0 := Nat.le_zero.mp hle
        obtain ⟨hpos, -, hrun', -⟩ := firstSlot_of_shaped hshaped
        have := (hrun'.mem_slot hmem).1
        omega

/-! ### Careful runs -/

/-- **The input asks for nothing that the journal would refuse**: its entries have a slot after
them, there are slots left, and no history a view is installed with restates what was reclaimed. -/
structure Heeds (r : Replica SegmentedLog) (input : TimedInput) : Prop where
  storable : ∀ sender message, input.event = .peer sender message → message.Storable
  room : r.progress.accepted + input.event.appends + 1 < u64Bound
  wins : ∀ attempt report, r.Carries input.event attempt → r.WinsWith attempt report →
    ¬ r.Restates report.suffix report.accepted
  announced : ∀ sender message suffix accepted committed, input.event = .peer sender message →
    r.TakesView sender message suffix accepted committed → ¬ r.Restates suffix accepted

/-- What is parked begins no lower than what the journal will retain. -/
def KeepsParked (r : Replica SegmentedLog) : Prop :=
  ∀ parked start suffix, r.parked = some parked → parked.journal = .installSuffix start suffix →
    (Journal.retained r.reclaimJournal.journal).1 ≤ start

/-- **A careful run**: from a provisioning or from the records of an earlier life, through inputs
that ask for nothing the journal would refuse, with the reclamations that the published
checkpoints authorise. -/
inductive Careful : Replica SegmentedLog → Prop
  | provision {own : Nat} {order : List Nat} {strategy : QuorumStrategy} {journal : SegmentedLog}
      {stability : Stability} {knobs : ViewChangeKnobs} {r : Replica SegmentedLog}
      (h : provision own order strategy journal stability knobs = .ok r) : Careful r
  | reopen {own : Nat} {strategy : QuorumStrategy} {journal : SegmentedLog}
      {persisted : ProgressData} {stability : Stability} {knobs : ViewChangeKnobs}
      {r : Replica SegmentedLog} (hfirst : voidSlot ≤ (Journal.retained journal).1)
      (hheld : (Journal.accepted journal).isSome)
      (h : reopenFenced own strategy journal persisted stability knobs = .ok r) : Careful r
  | witnesses {r : Replica SegmentedLog} (hr : Careful r) (witnesses : List Nat) :
      Careful (r.withWitnesses witnesses)
  | reclaim {r : Replica SegmentedLog} (hr : Careful r) (hkeeps : r.KeepsParked) :
      Careful r.reclaimJournal
  | step {r : Replica SegmentedLog} (hr : Careful r) (input : TimedInput)
      (hheeds : r.Heeds input) : Careful (r.step input).1

/-- What is noted of a view change, and what is retained of an offer, could be stored. -/
structure Notes (bookkeeping : Bookkeeping) : Prop where
  attempt : ∀ attempt, bookkeeping.viewChange = .set attempt → attempt.Reported Holdable
  offer : ∀ offer, bookkeeping.stalled = .set offer → offer.message.Storable

/-- **What a careful run keeps**: the journal holds entries, from the first slot on or later; what
is collected and retained could be stored; and what is parked will be taken. -/
structure Prepared (r : Replica SegmentedLog) : Prop where
  first : voidSlot ≤ (Journal.retained r.journal).1
  held : (Journal.accepted r.journal).isSome
  attempt : ∀ attempt, r.viewChange = some attempt → attempt.Reported Holdable
  offer : r.OfferStorable
  parked : ∀ parked, r.parked = some parked → Notes parked.bookkeeping ∧
    ∃ journal, mutateJournal r.journal parked.journal = .ok journal

theorem ownEvidence_holdable (hfirst : voidSlot ≤ (Journal.retained r.journal).1)
    (hfrontier : Journal.accepted r.journal = some r.progress.accepted) :
    Holdable r.ownEvidence.suffix r.ownEvidence.accepted := by
  obtain ⟨log, hreads, hlength⟩ := SegmentedLog.exists_log hfrontier hfirst
  obtain ⟨hoffers, hshaped⟩ : Offers r.ownEvidence.suffix log ∧
      Shaped r.ownEvidence.suffix r.progress.accepted :=
    boundedSuffix_run hreads (fun _ hmem => by cases hmem) (Or.inl rfl) fun _ _ => rfl
  refine ⟨hshaped, fun entry hmem => ?_⟩
  have hslot := (logAt_lt (hoffers entry hmem)).2
  have hbound := (SegmentedLog.accepted_bound hfrontier).2
  omega

/-- A message that could be stored has a suffix that could. -/
theorem admits_holdable {given : Given} (hshape : given.shape = Holdable) {message : Message}
    (h : message.Storable) : given.Admits message := by
  unfold Message.Storable at h
  unfold Given.Admits
  rw [hshape]
  cases hbody : message.body <;> rw [hbody] at h <;>
    first
    | trivial
    | exact fun hsuffix => ⟨shaped_of_suffixShapeOk hsuffix h, h⟩

/-- A retained offer that checks is held from its first slot on. -/
theorem not_restates_of_checked {suffix : List LogEntry} {accepted committed : Nat}
    (hshaped : suffixShapeOk suffix accepted = true)
    (hchecks : (r.checkSuffix suffix accepted committed Slot.none).installs = true) :
    ¬ r.Restates suffix accepted := by
  intro hrestates
  obtain ⟨first, rest, rfl, hbelow⟩ := hrestates.below
  have hpos : first.slot ≠ Slot.none := by
    unfold suffixShapeOk suffixShapeOk.go at hshaped
    simp only [Bool.and_eq_true, bne_iff_ne] at hshaped
    exact hshaped.1
  have hnone := LawfulJournal.get_lt_first hbelow
  unfold checkSuffix at hchecks
  simp only at hchecks
  split at hchecks
  · cases hchecks
  · -- nothing vouches for the first slot: it is let go of, and the retained offer discharges none
    rcases hrestates.held first List.mem_cons_self with hheld | ⟨-, hle⟩
    · rw [hnone] at hheld
      cases hheld
    · have := r.progress.checkpoint_le_applied
      have := r.progress.applied_le_committed
      have := r.progress.committed_le_accepted
      have hscan : scanSuffix r.journal r.progress.accepted r.progress.committed Slot.none
          (first :: rest) = .unverifiable first.slot := by
        rw [scanSuffix, if_neg (by omega), hnone]
        exact if_neg fun hle => hpos (Nat.le_zero.mp hle)
      rw [hscan] at hchecks
      cases hchecks

theorem Prepared.holds (h : r.Prepared) {input : TimedInput} (hheeds : r.Heeds input)
    (hfrontier : Journal.accepted r.journal = some r.progress.accepted) :
    r.Holds (r.carefulGiven input) input where
  reported := ⟨ownEvidence_holdable h.first hfrontier, h.attempt⟩
  offer := fun offer hstalled =>
    ⟨h.offer offer hstalled, admits_holdable rfl (h.offer offer hstalled)⟩
  message := fun sender message hevent =>
    ⟨hheeds.storable sender message hevent, admits_holdable rfl (hheeds.storable _ _ hevent)⟩
  views := by
    refine ⟨fun attempt hcarries report hwins _ => hheeds.wins attempt report hcarries hwins, ?_⟩
    intro sender message suffix accepted committed hjudges htakes _
    rcases hjudges with hevent | ⟨-, -, hchecks⟩
    · exact hheeds.announced sender message suffix accepted committed hevent htakes
    · exact not_restates_of_checked htakes.shaped hchecks
  uncut := fun hfalse => hfalse.elim
  width := Nat.le_refl _
  acknowledges := fun _ => trivial

/-- **What a heeding input plans is taken**, and what it notes could be stored. -/
theorem Prepared.plan (h : r.Prepared) {input : TimedInput} (hheeds : r.Heeds input)
    {plan : PlannedTransition} (hplan : r.plan input = .ok plan) :
    Notes plan.bookkeeping ∧ ∃ journal, mutateJournal r.journal plan.journal = .ok journal := by
  have hfrontier : Journal.accepted r.journal = some r.progress.accepted := by
    obtain ⟨frontier, hheld⟩ := Option.isSome_iff_exists.mp h.held
    have hgate := (plan_gate hplan).2
    rw [hheld, Option.getD_some] at hgate
    rw [hheld, hgate]
  by_cases hfresh : ∀ revision result, input.event ≠ .stabilityConfirmation revision result
  · have hdrafted := (h.holds hheeds hfrontier).drafted hfresh hplan
    refine ⟨⟨hdrafted.reports, hdrafted.offers⟩, ?_⟩
    obtain ⟨_, _, _, _, hrewrite⟩ | ⟨_, _, _, _, _, _, hrewrite⟩ := hdrafted.advance
    · exact hrewrite.taken hfrontier hheeds.room
    · exact hrewrite.taken hfrontier hheeds.room
  · push Not at hfresh
    obtain ⟨revision, result, hevent⟩ := hfresh
    have hconfirmed := plan_confirmed hevent hplan
    rcases planConfirmation_candidate hconfirmed with
      ⟨parked, hparked, hcandidate, hjournal, heffects, hbookkeeping⟩ |
      ⟨⟨fault, hdata⟩, hjournal, heffects, hbookkeeping⟩
    · rw [hjournal, hbookkeeping]
      exact h.parked parked hparked
    · rw [hjournal, hbookkeeping]
      exact ⟨⟨fun _ hset => (by cases hset), fun _ hset => (by cases hset)⟩, _, rfl⟩

/-! ### Careful steps -/

/-- What a journal takes leaves it as far back as it was. -/
theorem mutated_retained {journal journal' : SegmentedLog} {mutation : JournalMutation}
    (hheld : (Journal.accepted journal).isSome) (h : mutateJournal journal mutation = .ok journal') :
    (Journal.retained journal').1 = (Journal.retained journal).1 ∧
      (Journal.accepted journal').isSome := by
  obtain ⟨frontier, hfrontier⟩ := Option.isSome_iff_exists.mp hheld
  cases mutation with
  | none =>
    cases h
    exact ⟨rfl, hheld⟩
  | accept entries =>
    cases entries with
    | nil =>
      obtain rfl : journal = journal' := Except.ok.inj (LawfulJournal.accept_nil.symm.trans h)
      exact ⟨rfl, hheld⟩
    | cons entry rest =>
      obtain ⟨-, hlast, hfirst, -⟩ := LawfulJournal.accept_ok hfrontier h
      exact ⟨hfirst, by rw [hlast]; rfl⟩
  | installSuffix start suffix =>
    obtain ⟨-, -, -, hlast, hfirst, -⟩ := LawfulJournal.installSuffix_ok hfrontier h
    exact ⟨hfirst, by rw [hlast]; rfl⟩

theorem Prepared.faultNode (h : r.Prepared) (fault : Fault) : (r.faultNode fault).Prepared := by
  rcases faultNode_cases r fault with heq | ⟨progress, heq, -⟩
  · rw [heq]
    exact h
  · rw [heq]
    exact ⟨h.first, h.held, h.attempt, h.offer, h.parked⟩

theorem Prepared.step (h : r.Prepared) {input : TimedInput} (hheeds : r.Heeds input) :
    (r.step input).1.Prepared := by
  have houtcome := step_outcome r input
  generalize r.step input = out at houtcome
  cases houtcome with
  | refused => exact h
  | faulted fault => exact h.faultNode fault
  | diverged plan hplan hlegal =>
    refine Prepared.faultNode (r := { r with parked := none }) ?_ _
    exact ⟨h.first, h.held, h.attempt, h.offer, fun _ hnone => by cases hnone⟩
  | parked plan hplan hfresh hstability hnone =>
    refine ⟨h.first, h.held, h.attempt, h.offer, fun parked hparked => ?_⟩
    cases hparked
    exact h.plan hheeds hplan
  | published plan journal hplan hbase hfault hlegal hjournal =>
    obtain ⟨hnotes, -⟩ := h.plan hheeds hplan
    obtain ⟨hfirst, hheld⟩ := mutated_retained h.held hjournal
    have hkept : (({ r with parked := none } : Replica SegmentedLog).installed plan
        journal).OfferStorable := OfferStorable.installed h.offer hnotes.offer
    exact ⟨hfirst ▸ h.first, hheld, installed_reported h.attempt hnotes.attempt, hkept,
      fun _ hnone => by cases hnone⟩

/-- A mutation is taken after a reclamation as before it, unless it begins below what is left. -/
theorem mutateJournal_transfer {journal journal' mutated : SegmentedLog} {mutation : JournalMutation}
    (hheld : (Journal.accepted journal).isSome)
    (haccepted : Journal.accepted journal' = Journal.accepted journal)
    (hlow : ∀ start suffix, mutation = .installSuffix start suffix →
      (Journal.retained journal').1 ≤ start)
    (h : mutateJournal journal mutation = .ok mutated) :
    ∃ mutated', mutateJournal journal' mutation = .ok mutated' := by
  obtain ⟨frontier, hfrontier⟩ := Option.isSome_iff_exists.mp hheld
  cases mutation with
  | none => exact ⟨_, rfl⟩
  | accept entries =>
    cases entries with
    | nil => exact ⟨_, LawfulJournal.accept_nil⟩
    | cons entry rest =>
      have hne : entry :: rest ≠ [] := List.cons_ne_nil _ _
      exact (SegmentedLog.accept_isOk_iff (haccepted.trans hfrontier) hne).mpr
        ((SegmentedLog.accept_isOk_iff hfrontier hne).mp ⟨_, h⟩)
  | installSuffix start suffix =>
    exact SegmentedLog.installSuffix_transfer haccepted (hlow start suffix rfl) h

/-- A reclamation leaves the frontier alone, and moves the first slot up at most. -/
theorem reclaimJournal_journal (r : Replica SegmentedLog) :
    Journal.accepted r.reclaimJournal.journal = Journal.accepted r.journal ∧
      (Journal.retained r.journal).1 ≤ (Journal.retained r.reclaimJournal.journal).1 := by
  unfold reclaimJournal
  split
  · exact ⟨rfl, Nat.le_refl _⟩
  · obtain ⟨haccepted, first, -, hle, hfirst, -⟩ :=
      r.journal.reclaimThrough_spec r.progress.checkpoint
    exact ⟨haccepted, hfirst ▸ hle⟩

theorem Prepared.reclaim (h : r.Prepared) (hkeeps : r.KeepsParked) :
    r.reclaimJournal.Prepared := by
  have hrest : r.reclaimJournal.viewChange = r.viewChange ∧
      r.reclaimJournal.stalled = r.stalled ∧ r.reclaimJournal.parked = r.parked := by
    unfold reclaimJournal
    split
    · exact ⟨rfl, rfl, rfl⟩
    · exact ⟨rfl, rfl, rfl⟩
  obtain ⟨haccepted, hle⟩ := r.reclaimJournal_journal
  obtain ⟨hview, hstalled, hparked⟩ := hrest
  refine ⟨h.first.trans hle, haccepted ▸ h.held, fun attempt hsome => ?_, fun offer hsome => ?_,
    fun parked hsome => ?_⟩
  · exact h.attempt attempt (hview ▸ hsome)
  · exact h.offer offer (hstalled ▸ hsome)
  · rw [hparked] at hsome
    obtain ⟨hnotes, mutated, htaken⟩ := h.parked parked hsome
    refine ⟨hnotes, mutateJournal_transfer h.held haccepted (fun start suffix hinstall => ?_) htaken⟩
    exact hkeeps parked start suffix hsome hinstall

theorem prepared_assemble {own : Nat} {strategy : QuorumStrategy} {journal : SegmentedLog}
    {stability : Stability} {knobs : ViewChangeKnobs} {progress : Progress}
    (hfirst : voidSlot ≤ (Journal.retained journal).1) (hheld : (Journal.accepted journal).isSome) :
    (assemble own strategy journal stability knobs progress).Prepared :=
  ⟨hfirst, hheld, fun _ hnone => (by cases hnone), fun _ hnone => (by cases hnone),
    fun _ hnone => (by cases hnone)⟩

theorem Careful.prepared (h : Careful r) : r.Prepared := by
  induction h with
  | provision h =>
    obtain ⟨table, journal', progress, -, hempty, hinstall, -, rfl⟩ := provision_data h
    obtain ⟨-, -, hlast, hfirst, -⟩ := LawfulJournal.installSuffix_fresh hempty hinstall
    exact prepared_assemble hfirst.ge (by rw [hlast]; rfl)
  | reopen hfirst hheld h =>
    obtain ⟨progress, -, rfl⟩ := reopenFenced_data h
    exact prepared_assemble hfirst hheld
  | witnesses hr witnesses ih => exact ⟨ih.first, ih.held, ih.attempt, ih.offer, ih.parked⟩
  | reclaim hr hkeeps ih => exact ih.reclaim hkeeps
  | step hr input hheeds ih => exact ih.step hheeds

/-- A publication whose mutation the journal takes does not end in its refusal. -/
theorem publish_ne_refused {plan : PlannedTransition} {journal : SegmentedLog}
    (htaken : mutateJournal r.journal plan.journal = .ok journal) (error : JournalError) :
    (r.publish plan).2 ≠ .error (.journalRefused error) := by
  intro hrefused
  have hpublish := publish_cases r plan
  generalize r.publish plan = outcome at hpublish hrefused
  cases hpublish with
  | refused refusal hgate => exact hgate error (Except.error.inj hrefused)
  | faulted => cases hrefused
  | diverged _ _ hjournal =>
    rw [htaken] at hjournal
    cases hjournal
  | parked => cases hrefused
  | published => cases hrefused

/-- **The journal never refuses what a careful replica plans** from an input that asks for nothing
it would refuse. -/
theorem mutation_taken (hr : Careful r) {input : TimedInput} (hheeds : r.Heeds input)
    {plan : PlannedTransition} (hplan : r.plan input = .ok plan) :
    (∃ journal, mutateJournal r.journal plan.journal = .ok journal) ∧
      ∀ error, (r.publish plan).2 ≠ .error (.journalRefused error) := by
  obtain ⟨-, journal, htaken⟩ := hr.prepared.plan hheeds hplan
  exact ⟨⟨journal, htaken⟩, publish_ne_refused htaken⟩

/-- Node 2 announces the next view with the genesis history. -/
def genesisView : TimedInput where
  time := 2
  event := .peer 2
    { header := { view := { era := 1, view := 1 }, slot := 2 }
      body := .startView (genesisEntries [1, 2, 3] 1) 2 2
        { op := .init [1, 2, 3], committedAt := 2 } }

theorem Carries.opened {event : Input} {attempt : ViewChangeVolatile}
    (h : r.Carries event attempt) : ∃ opened, r.viewChange = some opened := by
  cases h with
  | ticked hopen => exact ⟨_, hopen⟩
  | fenced hopen hview hbody => exact ⟨_, hopen⟩
  | reported hopen hview hbody hshape => exact ⟨_, hopen⟩

theorem heeds_prepareNext (hattempt : r.viewChange = none)
    (hroom : r.progress.accepted + 2 < u64Bound) (slot : Nat) : r.Heeds (prepareNext slot) where
  storable := by
    intro sender message hevent
    cases hevent
    trivial
  room := hroom
  wins := by
    intro attempt report hcarries
    obtain ⟨opened, hopen⟩ := hcarries.opened
    cases hattempt.symm.trans hopen
  announced := by
    intro sender message suffix accepted committed hevent htakes
    cases hevent
    obtain ⟨proof, record, hbody, -⟩ := htakes.body
    cases hbody

theorem heeds_genesisView (hattempt : r.viewChange = none)
    (hroom : r.progress.accepted + 1 < u64Bound) (hfirst : (Journal.retained r.journal).1 = 1) :
    r.Heeds genesisView where
  storable := by
    intro sender message hevent
    cases hevent
    show ∀ entry ∈ genesisEntries [1, 2, 3] 1, entry.slot + 1 < u64Bound
    decide
  room := hroom
  wins := by
    intro attempt report hcarries
    obtain ⟨opened, hopen⟩ := hcarries.opened
    cases hattempt.symm.trans hopen
  announced := by
    intro sender message suffix accepted committed hevent htakes hrestates
    cases hevent
    obtain ⟨proof, record, hbody, -⟩ := htakes.body
    cases hbody
    obtain ⟨first, rest, hsuffix, hbelow⟩ := hrestates.below
    cases hsuffix
    rw [hfirst] at hbelow
    exact absurd hbelow (Nat.lt_irrefl 1)

/-- A backup that holds one more entry than the announced history gives it up: the journal takes
the install from the first slot on, which it still retains. -/
theorem mutation_taken_genesis : ∃ (r : Replica SegmentedLog) (plan : PlannedTransition),
    preparedThird = some r ∧ r.plan genesisView = .ok plan ∧
      plan.journal = .installSuffix 1 (genesisEntries [1, 2, 3] 1) ∧
      ∃ journal, mutateJournal r.journal plan.journal = .ok journal := by
  have hfresh : (freshThird.map fun r => decide (r.progress.accepted = 2 ∧
      r.viewChange.isNone)) = some true := by decide +kernel
  have hplanned : (preparedThird.map fun r => (r.viewChange.isNone,
      ((r.plan genesisView).map PlannedTransition.journal).toOption)) =
        some (true, some (.installSuffix 1 (genesisEntries [1, 2, 3] 1))) := by decide +kernel
  obtain ⟨fresh, hthird, hfresh⟩ := Option.map_eq_some_iff.mp hfresh
  obtain ⟨r, hr, hplanned⟩ := Option.map_eq_some_iff.mp hplanned
  obtain ⟨haccepted, hnone⟩ := of_decide_eq_true hfresh
  rw [Prod.mk.injEq] at hplanned
  obtain ⟨hnone', hplanned⟩ := hplanned
  obtain ⟨haccepted', -, -, -, hfirst, -⟩ := preparedThird_state hr
  have hprovision : Careful fresh := .provision (toOption_eq_some hthird)
  have hcareful : Careful r := by
    have hstep : (fresh.step (prepareNext 3)).1 = r := by
      unfold preparedThird at hr
      rw [hthird] at hr
      exact Option.some.inj hr
    rw [← hstep]
    exact hprovision.step _ (heeds_prepareNext (Option.isNone_iff_eq_none.mp hnone)
      (by rw [haccepted]; decide) 3)
  have hheeds : r.Heeds genesisView := heeds_genesisView (Option.isNone_iff_eq_none.mp hnone')
    (by rw [haccepted']; decide) hfirst
  cases hplan : r.plan genesisView with
  | error refusal =>
    rw [hplan] at hplanned
    cases hplanned
  | ok plan =>
    rw [hplan] at hplanned
    exact ⟨r, plan, hr, hplan, Option.some.inj hplanned, (mutation_taken hcareful hheeds hplan).1⟩

end Replica

namespace Cluster

/-! ### A view announced with a shorter history -/

/-- The event makes a node plan a mutation that its journal refuses. -/
def refuses (c : Cluster) (event : ClusterEvent) : Bool :=
  match c.taken event with
  | none => false
  | some (node, input) =>
    match c.nodes node with
    | none => false
    | some r =>
      match r.plan input with
      | .error _ => false
      | .ok plan =>
        match (r.publish plan).2 with
        | .error (.journalRefused _) => true
        | _ => false

/-- Node 3 holds an operation of its own at slot 4, has the one at slot 3 committed, applied and
checkpointed, and lets go of the first three slots. Node 2 knows the third slot committed, and
opens the next view with the reports of nodes 4 and 5: its whole journal is the three slots. -/
def shorterView : List ClusterEvent :=
  [.input 1 1 .tick, .deliver 0 1, .deliver 1 1, .input 1 2 (.propose ⟨⟨0, 1⟩, []⟩),
    .deliver 4 2, .deliver 5 2, .deliver 8 3, .deliver 9 3, .deliver 10 3,
    .input 1 4 (.propose ⟨⟨0, 2⟩, []⟩), .deliver 15 4, .input 3 5 (.applied 3),
    .input 3 6 (.checkpointed 3), .reclaim 3, .input 2 7 (.adminForceView ⟨1, 1⟩),
    .deliver 21 7, .deliver 22 7, .deliver 24 8, .deliver 28 8, .deliver 30 8, .deliver 26 8,
    .deliver 31 9, .deliver 32 9]

/-- **The announcement is refused**: it asks node 3 to install its history from the first slot. -/
theorem shorterView_refused : ¬ ∀ (order : List Nat) (knobs : Nat → ViewChangeKnobs)
    (tailCapacity : Nat → Nat) (events : List ClusterEvent) (event : ClusterEvent) (node : Nat)
    (r : Replica SegmentedLog) (input : TimedInput) (plan : PlannedTransition),
    ((provisioned order knobs tailCapacity).run events).nodes node = some r →
    ((provisioned order knobs tailCapacity).run events).taken event = some (node, input) →
    r.plan input = .ok plan → ∀ error, (r.publish plan).2 ≠ .error (.journalRefused error) := by
  intro hall
  have hrefuses : ((provisioned [1, 2, 3, 4, 5] (fun _ => ⟨0, 1000⟩) fun _ => 1).run
      shorterView).refuses (.deliver 34 10) = true := by decide +kernel
  unfold refuses at hrefuses
  split at hrefuses
  · cases hrefuses
  · rename_i node input htaken
    split at hrefuses
    · cases hrefuses
    · rename_i r hnode
      split at hrefuses
      · cases hrefuses
      · rename_i plan hplan
        split at hrefuses
        · rename_i error hrefused
          exact hall _ _ _ _ _ node r input plan hnode htaken hplan error hrefused
        · cases hrefuses

end Cluster

end UvrrCore
