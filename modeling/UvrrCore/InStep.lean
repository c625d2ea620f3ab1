import UvrrCore.Adoption
import UvrrCore.FusedJump

/-!
# Journal and record in step

A plan carries the next record and the journal mutation that goes with it, each computed on its
own. They are in step when the journal ends, once it took the mutation, where the record says it
does: a replica whose journal and record part refuses every later input.

* `StaysInStep`: a planned mutation and its record are in step whatever is reclaimed before it.
* `Unshortened`: a replica that never installed the front part of a chunk over a longer tail.
* `inStep_iff`: the plans of such a replica that keep it in step.
-/

namespace UvrrCore

/-! ### Where a log ends -/

namespace SegmentedLog

theorem accept_accepted {l l' : SegmentedLog} {entries : List LogEntry} {last : LogEntry}
    (hlast : entries.getLast? = some last) (h : Journal.accept l entries = .ok l') :
    Journal.accepted l' = some last.slot := by
  have hdata := accept_data h
  unfold LogData.accept at hdata
  rw [hlast] at hdata
  simp only at hdata
  split at hdata
  · cases hdata
  · split at hdata
    · cases hdata
    · show l'.toLogData.accepted = _
      rw [← Except.ok.inj hdata]

/-- A log ends where the suffix it installed does. -/
theorem installSuffix_accepted {l l' : SegmentedLog} {start : Nat} {suffix : List LogEntry}
    (h : Journal.installSuffix l start suffix = .ok l') :
    ∃ last, suffix.getLast? = some last ∧ Journal.accepted l' = some last.slot ∧
      last.slot + 1 < u64Bound := by
  have hdata := installSuffix_data h
  unfold LogData.installSuffix at hdata
  split at hdata
  · cases hdata
  · split at hdata
    · cases hdata
    · split at hdata
      · cases hdata
      · split at hdata
        · cases hdata
        · rename_i last hlast
          have haccepted : Journal.accepted l' = some last.slot := by
            show l'.toLogData.accepted = _
            rw [← Except.ok.inj hdata]
          exact ⟨last, hlast, haccepted, (accepted_bound haccepted).2⟩

/-- What is installed begins where the log retains it. -/
theorem installSuffix_retained {l journal : SegmentedLog} {start : Nat} {suffix : List LogEntry}
    (h : Journal.installSuffix l start suffix = .ok journal) : (Journal.retained l).1 ≤ start := by
  have hdata := installSuffix_data h
  unfold LogData.installSuffix at hdata
  split at hdata
  · cases hdata
  · rename_i hretained
    exact Nat.not_lt.mp hretained

/-- What a log takes, another log of the same frontier takes that has not let go of it. -/
theorem installSuffix_transfer {l l' journal : SegmentedLog} {start : Nat} {suffix : List LogEntry}
    (haccepted : Journal.accepted l' = Journal.accepted l) (hlow : (Journal.retained l').1 ≤ start)
    (h : Journal.installSuffix l start suffix = .ok journal) :
    ∃ journal', Journal.installSuffix l' start suffix = .ok journal' := by
  have hdata := installSuffix_data h
  have hok : ∃ data, l'.toLogData.installSuffix start suffix = .ok data := by
    have hretained : ¬ start < l'.firstSlot := Nat.not_lt.mpr hlow
    have hexpected : l'.toLogData.expectedCut start = l.toLogData.expectedCut start := by
      unfold LogData.expectedCut
      rw [show l'.accepted = l.accepted from haccepted]
    unfold LogData.installSuffix at hdata ⊢
    rw [if_neg hretained, hexpected]
    split at hdata
    · cases hdata
    · split at hdata
      · cases hdata
      · split at hdata
        · cases hdata
        · split at hdata
          · cases hdata
          · exact ⟨_, rfl⟩
  obtain ⟨data, hok⟩ := hok
  show ∃ journal', SegmentedLog.installSuffix l' start suffix = .ok journal'
  unfold SegmentedLog.installSuffix
  split
  · rename_i error herror
    rw [hok] at herror
    cases herror
  · exact ⟨_, rfl⟩

end SegmentedLog

/-! ### What the check installs -/

section Scan

variable {J : Type} [Journal J] {journal : J} {localAccepted committed discharged : Nat}

theorem scanSuffix_mem {slot : Nat} {entries : List LogEntry}
    (h : scanSuffix journal localAccepted committed discharged entries = .differsAt slot) :
    ∃ entry ∈ entries, entry.slot = slot := by
  induction entries with
  | nil => cases h
  | cons entry rest ih =>
    have hhere : SuffixScan.differsAt entry.slot = .differsAt slot →
        ∃ other ∈ entry :: rest, other.slot = slot := by
      intro heq
      cases heq
      exact ⟨entry, List.mem_cons_self, rfl⟩
    have hlater : scanSuffix journal localAccepted committed discharged rest = .differsAt slot →
        ∃ other ∈ entry :: rest, other.slot = slot := by
      intro hrest
      obtain ⟨other, hmem, hslot⟩ := ih hrest
      exact ⟨other, List.mem_cons_of_mem _ hmem, hslot⟩
    rw [scanSuffix] at h
    split at h
    · exact hhere h
    · split at h
      · split at h
        · exact hlater h
        · split at h
          · cases h
          · exact hhere h
      · split at h
        · exact hlater h
        · cases h

/-- The newest entries of a journal are a run that ends at the cursor, or none. -/
theorem journalTail_linked [LawfulJournal J] (budget cursor bytes : Nat) :
    journalTail journal budget cursor bytes = [] ∨
      ∃ start, ContiguousFrom start (journalTail journal budget cursor bytes) ∧
        start + (journalTail journal budget cursor bytes).length = cursor + 1 := by
  induction cursor generalizing bytes with
  | zero =>
    unfold journalTail journalTail.tailAt
    simp only
    split
    · exact .inl rfl
    · split
      · exact .inl rfl
      · rename_i entry hget
        split
        · exact .inl rfl
        · exact .inr ⟨0, ⟨LawfulJournal.get_slot hget, trivial⟩, rfl⟩
  | succ cursor ih =>
    unfold journalTail journalTail.tailAt
    simp only
    split
    · exact .inl rfl
    · split
      · exact .inl rfl
      · rename_i entry hget
        have hslot := LawfulJournal.get_slot hget
        split
        · exact .inl rfl
        · refine .inr ?_
          rcases ih (bytes + entry.packedLen) with hnil | ⟨start, hrun, hend⟩
          · rw [hnil]
            exact ⟨cursor + 1, ⟨hslot, trivial⟩, rfl⟩
          · refine ⟨start, contiguousFrom_append.mpr ⟨hrun, hend ▸ hslot, trivial⟩, ?_⟩
            rw [List.length_append, List.length_singleton]
            omega

/-- A replica reports the end of its journal. -/
theorem Replica.ownEvidence_linked [LawfulJournal J] (r : Replica J) :
    Linked r.ownEvidence.suffix r.ownEvidence.accepted := by
  have htail : r.ownEvidence.suffix =
      journalTail r.journal r.knobs.viewChangeBudget r.progress.accepted 0 := by
    show r.boundedSuffix r.progress.accepted [] = _
    unfold Replica.boundedSuffix
    simp [takeFitting]
  rw [htail]
  have hlinked : journalTail r.journal r.knobs.viewChangeBudget r.progress.accepted 0 = [] ∨
      ∃ start, ContiguousFrom start (journalTail r.journal r.knobs.viewChangeBudget
          r.progress.accepted 0) ∧
        start + (journalTail r.journal r.knobs.viewChangeBudget r.progress.accepted 0).length =
          r.progress.accepted + 1 :=
    journalTail_linked _ _ _
  rcases hlinked with hnil | ⟨start, hrun, hend⟩
  · rw [hnil]
    exact Linked.nil _
  · exact Linked.of_run hrun hend

end Scan

/-- What an offer cut at a slot ends in. -/
theorem Linked.covered {entries : List LogEntry} {through covered : Nat}
    (h : Linked entries through) (hshort : covered < through) {last : LogEntry}
    (hlast : (entries.filter fun entry => decide (entry.slot ≤ covered)).getLast? = some last) :
    last.slot = covered ∨ Slot.next last.slot = none := by
  obtain ⟨front, hfront⟩ := List.getLast?_eq_some_iff.mp hlast
  obtain ⟨before, after, rfl, -, hafter⟩ := List.filter_eq_append_iff.mp hfront
  obtain ⟨skipped, later, rfl, -, hbelow, hlater⟩ := List.filter_eq_cons_iff.mp hafter
  rw [decide_eq_true_eq] at hbelow
  rw [List.filter_eq_nil_iff] at hlater
  have hchain := h.chain
  rw [← List.append_assoc] at hchain
  cases later with
  | nil =>
    have hend := h.ends last (by simp)
    omega
  | cons next later =>
    -- the offer goes on behind the cut, with the slot after it
    have habove := hlater next List.mem_cons_self
    rw [decide_eq_true_eq] at habove
    have hnext := (List.isChain_cons_cons.mp (List.isChain_append.mp hchain).2.1).1
    rcases hnext with hnext | hnone
    · have := (Slot.next_eq_some.mp hnext).2
      exact .inl (by omega)
    · exact .inr hnone

namespace Replica

variable {r : Replica SegmentedLog}

/-- An offer that is installed connects to what the journal holds. -/
theorem checkSuffix_near {first : LogEntry} {rest : List LogEntry}
    {accepted committed discharged : Nat} {mutation : JournalMutation}
    (h : r.checkSuffix (first :: rest) accepted committed discharged = .install mutation) :
    first.slot ≤ r.progress.accepted + 1 := by
  unfold checkSuffix at h
  simp only at h
  split at h
  · cases h
  · rename_i hconnects
    rw [not_and, not_lt] at hconnects
    by_cases hnext : Slot.next r.progress.accepted = some first.slot
    · rw [Slot.next_eq_some] at hnext
      omega
    · exact Nat.le_succ_of_le (hconnects hnext)

/-- What the check installs: nothing, where the scan got to the end of an offer that is no shorter
than the journal; or the end of the offer. -/
theorem checkSuffix_installs {suffix : List LogEntry} {accepted committed discharged : Nat}
    {mutation : JournalMutation}
    (h : r.checkSuffix suffix accepted committed discharged = .install mutation) :
    (suffix = [] ∧ mutation = .none ∧ accepted = r.progress.accepted) ∨
      (∃ first rest, suffix = first :: rest ∧ mutation = .none ∧ r.progress.accepted ≤ accepted ∧
        (scanSuffix r.journal r.progress.accepted r.progress.committed discharged suffix = .agreed ∨
          ∃ slot, accepted < slot ∧ scanSuffix r.journal r.progress.accepted r.progress.committed
            discharged suffix = .differsAt slot)) ∨
      ∃ start rest, mutation = .installSuffix start rest ∧ rest <:+ suffix := by
  unfold checkSuffix at h
  cases suffix with
  | nil =>
    simp only at h
    split at h
    · rename_i heq
      cases h
      exact .inl ⟨rfl, rfl, heq.1⟩
    · cases h
  | cons first rest =>
    simp only at h
    split at h
    · cases h
    · split at h
      · cases h
      · cases h
      · rename_i slot hscan
        split at h
        · rename_i hlt
          split at h
          · cases h
            exact .inr (.inr ⟨first.slot, first :: rest, rfl, List.suffix_rfl⟩)
          · cases h
            exact .inr (.inl ⟨first, rest, rfl, rfl, by omega, .inr ⟨slot, hlt, hscan⟩⟩)
        · cases h
          exact .inr (.inr ⟨slot, _, rfl, List.dropWhile_suffix _⟩)
      · rename_i hscan
        split at h
        · split at h
          · cases h
            exact .inr (.inr ⟨first.slot, first :: rest, rfl, List.suffix_rfl⟩)
          · cases h
            exact .inr (.inl ⟨first, rest, rfl, rfl, by omega, .inl hscan⟩)
        · cases h
          exact .inr (.inr ⟨_, _, rfl, List.dropWhile_suffix _⟩)

/-! ### Staying in step -/

/-- The log ends at `accepted` once it has taken the mutation, whatever is reclaimed before. -/
def StaysInStep (l : SegmentedLog) (mutation : JournalMutation) (accepted : Nat) : Prop :=
  ∀ l' journal : SegmentedLog, Journal.accepted l' = Journal.accepted l →
    (Journal.retained l).1 ≤ (Journal.retained l').1 →
    mutateJournal l' mutation = .ok journal →
      (Journal.accepted journal).getD Slot.none = accepted

theorem StaysInStep.reclaim {l l' : SegmentedLog} {mutation : JournalMutation} {accepted : Nat}
    (h : StaysInStep l mutation accepted) (haccepted : Journal.accepted l' = Journal.accepted l)
    (hfirst : (Journal.retained l).1 ≤ (Journal.retained l').1) :
    StaysInStep l' mutation accepted := by
  intro l'' journal haccepted' hfirst' hjournal
  exact h l'' journal (haccepted'.trans haccepted) (hfirst.trans hfirst') hjournal

/-- A suffix of an offer that ends at `accepted`, unless it ends at the last slot there is. -/
theorem staysInStep_installSuffix {l : SegmentedLog} {start accepted : Nat}
    {rest suffix : List LogEntry} (hsuffix : rest <:+ suffix)
    (hends : ∀ last, suffix.getLast? = some last →
      last.slot = accepted ∨ Slot.next last.slot = none) :
    StaysInStep l (.installSuffix start rest) accepted := by
  intro l' journal haccepted hfirst hjournal
  obtain ⟨last, hlast, hfrontier, hbound⟩ := SegmentedLog.installSuffix_accepted hjournal
  rw [hfrontier, Option.getD_some]
  obtain ⟨before, rfl⟩ := hsuffix
  have hwhole : (before ++ rest).getLast? = some last := by
    rw [List.getLast?_append, hlast]
    rfl
  rcases hends last hwhole with hslot | hnone
  · exact hslot
  · unfold Slot.next at hnone
    rw [if_pos hbound] at hnone
    cases hnone

/-- A mutation that leaves the log alone. -/
theorem staysInStep_none {l : SegmentedLog} {accepted : Nat}
    (h : (Journal.accepted l).getD Slot.none = accepted) : StaysInStep l .none accepted := by
  intro l' journal haccepted hfirst hjournal
  obtain rfl : l' = journal := Except.ok.inj hjournal
  rw [haccepted]
  exact h

/-- A log of frontier `accepted` has room for one more entry. -/
theorem accepted_room (h : (Journal.accepted r.journal).getD Slot.none = r.progress.accepted) :
    r.progress.accepted + 1 < u64Bound := by
  cases hfrontier : Journal.accepted r.journal with
  | none =>
    rw [hfrontier, Option.getD_none] at h
    rw [← h]
    decide
  | some frontier =>
    have := (SegmentedLog.accepted_bound hfrontier).2
    rw [hfrontier, Option.getD_some] at h
    rwa [← h]

/-- **What an offer installs ends where the offer does.** -/
theorem checkSuffix_staysInStep {suffix : List LogEntry} {accepted committed discharged : Nat}
    {mutation : JournalMutation} (hlinked : Linked suffix accepted)
    (hframe : (Journal.accepted r.journal).getD Slot.none = r.progress.accepted)
    (h : r.checkSuffix suffix accepted committed discharged = .install mutation) :
    StaysInStep r.journal mutation accepted := by
  rcases checkSuffix_installs h with ⟨-, rfl, haccepted⟩ |
    ⟨first, rest, rfl, rfl, hle, hscan⟩ | ⟨start, rest, rfl, hsuffix⟩
  · exact staysInStep_none (hframe.trans haccepted.symm)
  · refine staysInStep_none (hframe.trans (Nat.le_antisymm hle ?_))
    rcases hscan with hagreed | ⟨slot, hlt, hdiffers⟩
    · have hlast := List.getLast?_eq_some_getLast (List.cons_ne_nil first rest)
      have := (scanSuffix_agreed hagreed _ (List.getLast_mem (List.cons_ne_nil first rest))).1
      rwa [hlinked.ends _ hlast] at this
    · obtain ⟨-, hwhere⟩ := scanSuffix_stops hlinked.chain
        (fun entry hhead => by cases hhead; exact checkSuffix_near h) (accepted_room hframe) hdiffers
      omega
  · exact staysInStep_installSuffix hsuffix fun last hlast => .inl (hlinked.ends last hlast)

/-- **What is installed of a chunk in part ends where the fold stopped**, unless the journal keeps
a longer tail. -/
theorem truncatedMutation_staysInStep {entries : List LogEntry} {through covered committed : Nat}
    {whole mutation : JournalMutation} (hlinked : Linked entries through)
    (hframe : (Journal.accepted r.journal).getD Slot.none = r.progress.accepted)
    (hwhole : r.checkSuffix entries through committed Slot.none = .install whole)
    (hshort : covered < through)
    (hkeeps : r.progress.accepted ≤ covered ∨ mutation = .none)
    (h : r.truncatedMutation entries covered committed = .install mutation) :
    StaysInStep r.journal mutation (max r.progress.accepted covered) := by
  unfold truncatedMutation at h
  simp only at h
  split at h
  · -- nothing of the chunk is covered, and what is covered the journal holds
    rename_i hnothing
    cases h
    refine staysInStep_none (hframe.trans (Nat.max_eq_left ?_).symm)
    rw [List.isEmpty_iff, List.filter_eq_nil_iff] at hnothing
    cases entries with
    | nil =>
      unfold checkSuffix at hwhole
      simp only at hwhole
      split at hwhole
      · omega
      · cases hwhole
    | cons first rest =>
      have habove := hnothing first List.mem_cons_self
      rw [decide_eq_true_eq] at habove
      have := checkSuffix_near hwhole
      omega
  · rename_i hpart
    have hends : ∀ last, (entries.filter fun entry => decide (entry.slot ≤ covered)).getLast? =
        some last → last.slot = covered ∨ Slot.next last.slot = none :=
      fun last hlast => hlinked.covered hshort hlast
    rcases checkSuffix_installs h with ⟨hnil, -, -⟩ | ⟨first, rest, hcons, rfl, hle, hscan⟩ |
      ⟨start, rest, rfl, hsuffix⟩
    · exact absurd (List.isEmpty_iff.mpr hnil) hpart
    · refine staysInStep_none (hframe.trans ?_)
      rcases hscan with hagreed | ⟨slot, hlt, hdiffers⟩
      · have hne := List.ne_nil_of_mem (hcons ▸ List.mem_cons_self : first ∈ _)
        have hlast := List.getLast?_eq_some_getLast hne
        have hheld := (scanSuffix_agreed hagreed _ (List.getLast_mem hne)).1
        have hroom := accepted_room hframe
        rcases hends _ hlast with hslot | hnone
        · omega
        · unfold Slot.next at hnone
          rw [if_pos (by omega)] at hnone
          cases hnone
      · obtain ⟨entry, hmem, rfl⟩ := scanSuffix_mem hdiffers
        have := (List.mem_filter.mp hmem).2
        rw [decide_eq_true_eq] at this
        omega
    · rcases hkeeps with hkeeps | hnone
      · rw [Nat.max_eq_right hkeeps]
        exact staysInStep_installSuffix hsuffix hends
      · cases hnone

/-- **What a draft does to the journal ends where its record does.** -/
theorem Rewrite.staysInStep {given : Given} {overlay : List LogEntry} {covered accepted : Nat}
    {mutation : JournalMutation} (h : r.Rewrite given overlay covered mutation accepted)
    (hlinked : ∀ entries accepted, given.shape entries accepted → Linked entries accepted)
    (huncut : given.uncut)
    (hframe : (Journal.accepted r.journal).getD Slot.none = r.progress.accepted) :
    StaysInStep r.journal mutation accepted := by
  cases h with
  | kept hoverlay => exact staysInStep_none hframe
  | @appended entries last hoverlay hrun hlast hwidth =>
    intro l' journal haccepted hfirst hjournal
    rw [SegmentedLog.accept_accepted hlast hjournal]
    rfl
  | spliced hshape hcheck hdischarged _ =>
    exact checkSuffix_staysInStep (hlinked _ _ hshape) hframe hcheck
  | truncated hboot hcut hshape hwhole hshort hcheck =>
    obtain ⟨whole, hwhole⟩ := hwhole
    exact truncatedMutation_staysInStep (hlinked _ _ hshape) hframe hwhole hshort (hcut huncut)
      hcheck

/-! ### The one way out of step -/

/-- The plan's record ends where the journal does once it took the plan's mutation. -/
def InStep (r : Replica SegmentedLog) (plan : PlannedTransition) : Prop :=
  ∀ journal, mutateJournal r.journal plan.journal = .ok journal →
    (Journal.accepted journal).getD Slot.none = plan.candidate.accepted

/-- **The input drops the end of the journal**: a chunk that is installed in part, and ends below
the accepted frontier. -/
def DropsTail (r : Replica SegmentedLog) (input : TimedInput) : Prop :=
  ∃ sender message entries through committed more folded start suffix journal,
    input.event = .peer sender message ∧ r.foreignSender sender message = false ∧
    r.ChunkTruncates sender message entries through committed more folded
      (.installSuffix start suffix) ∧
    folded.covered < r.progress.accepted ∧
    Journal.installSuffix r.journal start suffix = .ok journal

theorem installChunk_record {sender : Nat} {view : Ballot} {entries : List LogEntry}
    {through : Nat} {more : Bool} {folded : FoldedCommit} {mutation : JournalMutation}
    {kind : InputKind} {plan : PlannedTransition}
    (h : r.installChunk sender view entries through more folded mutation kind = .ok plan) :
    plan.journal = mutation ∧ plan.candidate.accepted =
      if r.bootAcquisition view then max r.progress.accepted folded.covered
      else max r.progress.accepted through := by
  obtain ⟨applies, -, h⟩ := bind_eq_ok.mp h
  obtain ⟨walkedView, -, h⟩ := bind_eq_ok.mp h
  obtain ⟨applied, -, h⟩ := bind_eq_ok.mp h
  obtain ⟨candidate, hcandidate, h⟩ := bind_eq_ok.mp h
  cases pure_eq_ok.mp h
  refine ⟨rfl, ?_⟩
  show candidate.accepted = _
  unfold chunkCandidate at hcandidate
  split at hcandidate
  · rw [walkedCandidate_ok hcandidate]
  · rw [candidateWith_ok hcandidate]
    rfl

/-- What is planned of a chunk that is installed in part. -/
theorem ChunkTruncates.planned {sender : Nat} {message : Message} {entries : List LogEntry}
    {through committed : Nat} {more : Bool} {folded : FoldedCommit} {mutation : JournalMutation}
    (h : r.ChunkTruncates sender message entries through committed more folded mutation)
    {input : TimedInput} (hevent : input.event = .peer sender message)
    (hforeign : r.foreignSender sender message = false) {plan : PlannedTransition}
    (hplan : r.plan input = .ok plan) :
    plan.journal = mutation ∧ plan.candidate.accepted = max r.progress.accepted folded.covered := by
  obtain ⟨handled, hhandled, hplan⟩ := plan_peerBody hevent hforeign hplan
  have hsame : plan.journal = handled.journal ∧ plan.candidate = handled.candidate := by
    rcases hplan with rfl | rfl <;> exact ⟨rfl, rfl⟩
  obtain ⟨record, hrecord, hmember⟩ := h.known
  obtain ⟨whole, hwhole⟩ := h.whole
  have hahead := h.ahead
  unfold planBody at hhandled
  rw [h.body] at hhandled
  simp only [planNewState, hrecord] at hhandled
  rw [if_neg (by simp [hmember]), if_neg h.formed, if_neg (by simp [h.qualified]),
    if_neg h.current, if_neg (by omega), hwhole] at hhandled
  simp only [h.fold] at hhandled
  rw [if_pos (by simp [h.boot, h.short]), h.part] at hhandled
  obtain ⟨hjournal, haccepted⟩ := installChunk_record hhandled
  rw [if_pos h.boot] at haccepted
  exact ⟨hsame.1.trans hjournal, by rw [hsame.2, haccepted]⟩

/-- A chunk in part whose end goes drops it out of step. -/
theorem DropsTail.not_inStep {input : TimedInput} (h : r.DropsTail input)
    {plan : PlannedTransition} (hplan : r.plan input = .ok plan) : ¬ r.InStep plan := by
  obtain ⟨sender, message, entries, through, committed, more, folded, start, suffix, journal,
    hevent, hforeign, htruncates, hlow, hjournal⟩ := h
  obtain ⟨hmutation, haccepted⟩ := htruncates.planned hevent hforeign hplan
  intro hinStep
  have hfrontier := hinStep journal (by rw [hmutation]; exact hjournal)
  obtain ⟨last, hlast, hend, -⟩ := SegmentedLog.installSuffix_accepted hjournal
  rw [hend, Option.getD_some, haccepted, Nat.max_eq_left hlow.le] at hfrontier
  have hpart := htruncates.part
  unfold truncatedMutation at hpart
  simp only at hpart
  split at hpart
  · cases hpart
  · rcases checkSuffix_installs hpart with ⟨-, hnone, -⟩ | ⟨_, _, -, hnone, -⟩ |
      ⟨start', rest, hinstall, hsuffix⟩
    · cases hnone
    · cases hnone
    · cases hinstall
      have hmem := hsuffix.subset (List.mem_of_getLast? hlast)
      have := (List.mem_filter.mp hmem).2
      rw [decide_eq_true_eq] at this
      omega

/-! ### Runs -/

/-- What is known of the suffixes at hand, and what becomes of the tail. -/
def linkedGiven (r : Replica SegmentedLog) (input : TimedInput) : Given where
  shape := Linked
  shorter := fun _ _ => True
  kept := fun _ => True
  uncut := ∀ sender message, input.event = .peer sender message →
    r.foreignSender sender message = false → r.KeepsTail sender message
  width := input.event.appends
  acknowledges := True

/-- The reports at hand end where they say, and what is parked stays in step. -/
structure Aligned (r : Replica SegmentedLog) : Prop where
  attempt : ∀ attempt, r.viewChange = some attempt → attempt.Reported Linked
  parked : ∀ parked, r.parked = some parked →
    StaysInStep r.journal parked.journal parked.candidate.accepted ∧
      ∀ attempt, parked.bookkeeping.viewChange = .set attempt → attempt.Reported Linked

theorem admits_linked {given : Given} (hshape : given.shape = Linked) (message : Message) :
    given.Admits message := by
  unfold Given.Admits
  rw [hshape]
  split
  · exact Linked.of_suffixShapeOk
  · exact Linked.of_suffixShapeOk
  · exact Linked.of_suffixShapeOk
  · trivial

theorem Aligned.holds (h : r.Aligned) (input : TimedInput) :
    r.Holds (r.linkedGiven input) input where
  reported := ⟨r.ownEvidence_linked, h.attempt⟩
  offer := fun offer _ => ⟨trivial, admits_linked rfl offer.message⟩
  message := fun _ message _ => ⟨trivial, admits_linked rfl message⟩
  views := fitViews_of_any fun _ _ => trivial
  uncut := fun huncut => huncut
  width := Nat.le_refl _
  acknowledges := fun _ => trivial

/-- **What a plan does to the journal stays in step with its record**, unless the input drops the
tail. -/
theorem Aligned.plan (h : r.Aligned) {input : TimedInput} (hkeeps : ¬ r.DropsTail input)
    {plan : PlannedTransition} (hplan : r.plan input = .ok plan) :
    StaysInStep r.journal plan.journal plan.candidate.accepted ∧
      ∀ attempt, plan.bookkeeping.viewChange = .set attempt → attempt.Reported Linked := by
  have hframe := (plan_gate hplan).2
  by_cases hfresh : ∀ revision result, input.event ≠ .stabilityConfirmation revision result
  · have hdrafted := (h.holds input).drafted hfresh hplan
    refine ⟨?_, hdrafted.reports⟩
    by_cases huncut : (r.linkedGiven input).uncut
    · obtain ⟨_, _, _, _, hrewrite⟩ | ⟨_, _, _, _, _, _, hrewrite⟩ := hdrafted.advance
      · exact hrewrite.staysInStep (fun _ _ hlinked => hlinked) huncut hframe
      · exact hrewrite.staysInStep (fun _ _ hlinked => hlinked) huncut hframe
    · -- the journal refuses what there is of a chunk that would drop the tail
      simp only [linkedGiven, KeepsTail] at huncut
      push Not at huncut
      obtain ⟨sender, message, hevent, hforeign, entries, through, committed, more, folded,
        mutation, htruncates, hlow, hmutates⟩ := huncut
      intro l' journal haccepted hfirst hjournal
      rw [(htruncates.planned hevent hforeign hplan).1] at hjournal
      have hpart := htruncates.part
      unfold truncatedMutation at hpart
      simp only at hpart
      split at hpart
      · cases hpart
        exact absurd rfl hmutates
      · rcases checkSuffix_installs hpart with ⟨-, hnone, -⟩ | ⟨_, _, -, hnone, -⟩ |
          ⟨start, suffix, rfl, -⟩
        · exact absurd hnone hmutates
        · exact absurd hnone hmutates
        · obtain ⟨journal', hinstall⟩ := SegmentedLog.installSuffix_transfer haccepted.symm
            (hfirst.trans (SegmentedLog.installSuffix_retained hjournal)) hjournal
          exact absurd ⟨sender, message, entries, through, committed, more, folded, start, suffix,
            journal', hevent, hforeign, htruncates, hlow, hinstall⟩ hkeeps
  · push Not at hfresh
    obtain ⟨revision, result, hevent⟩ := hfresh
    have hconfirmed := plan_confirmed hevent hplan
    rcases planConfirmation_candidate hconfirmed with
      ⟨parked, hparked, hcandidate, hjournal, heffects, hbookkeeping⟩ |
      ⟨⟨fault, hdata⟩, hjournal, heffects, hbookkeeping⟩
    · rw [hcandidate, hjournal, hbookkeeping]
      exact h.parked parked hparked
    · rw [hjournal, hbookkeeping]
      refine ⟨staysInStep_none (hframe.trans ?_), fun _ hset => by cases hset⟩
      show _ = plan.candidate.toProgressData.accepted
      rw [hdata]

/-- **A run that keeps the tail**: from a provisioning or from any records that agree, with
reclamations in between, no input drops the end of the journal. -/
inductive Unshortened : Replica SegmentedLog → Prop
  | provision {own : Nat} {order : List Nat} {strategy : QuorumStrategy} {journal : SegmentedLog}
      {stability : Stability} {knobs : ViewChangeKnobs} {r : Replica SegmentedLog}
      (h : provision own order strategy journal stability knobs = .ok r) : Unshortened r
  | reopen {own : Nat} {strategy : QuorumStrategy} {journal : SegmentedLog}
      {persisted : ProgressData} {stability : Stability} {knobs : ViewChangeKnobs}
      {r : Replica SegmentedLog}
      (h : reopenFenced own strategy journal persisted stability knobs = .ok r) : Unshortened r
  | witnesses {r : Replica SegmentedLog} (hr : Unshortened r) (witnesses : List Nat) :
      Unshortened (r.withWitnesses witnesses)
  | reclaim {r : Replica SegmentedLog} (hr : Unshortened r) :
      Unshortened { r with journal := r.journal.reclaimThrough r.progress.checkpoint }
  | step {r : Replica SegmentedLog} (hr : Unshortened r) (input : TimedInput)
      (hkeeps : ¬ r.DropsTail input) : Unshortened (r.step input).1

theorem aligned_assemble {own : Nat} {strategy : QuorumStrategy} {journal : SegmentedLog}
    {stability : Stability} {knobs : ViewChangeKnobs} {progress : Progress} :
    (assemble own strategy journal stability knobs progress).Aligned :=
  ⟨fun _ hnone => (by cases hnone), fun _ hnone => (by cases hnone)⟩

theorem Aligned.faultNode (h : r.Aligned) (fault : Fault) : (r.faultNode fault).Aligned := by
  rcases faultNode_cases r fault with heq | ⟨progress, heq, -⟩
  · rw [heq]
    exact h
  · rw [heq]
    exact ⟨h.attempt, h.parked⟩

theorem Aligned.step (h : r.Aligned) {input : TimedInput} (hkeeps : ¬ r.DropsTail input) :
    (r.step input).1.Aligned := by
  have houtcome := step_outcome r input
  generalize r.step input = out at houtcome
  cases houtcome with
  | refused => exact h
  | faulted fault => exact h.faultNode fault
  | diverged plan hplan hlegal =>
    refine Aligned.faultNode (r := { r with parked := none }) ?_ _
    exact ⟨h.attempt, fun _ hnone => by cases hnone⟩
  | parked plan hplan hfresh hstability hnone =>
    refine ⟨h.attempt, fun parked hparked => ?_⟩
    cases hparked
    exact h.plan hkeeps hplan
  | published plan journal hplan hbase hfault hlegal hjournal =>
    refine ⟨fun attempt hsome => ?_, fun _ hnone => by cases hnone⟩
    have hupdate : plan.bookkeeping.viewChange.applyTo r.viewChange = some attempt := hsome
    cases hview : plan.bookkeeping.viewChange with
    | unchanged =>
      rw [hview] at hupdate
      exact h.attempt attempt hupdate
    | set value =>
      rw [hview] at hupdate
      cases hupdate
      exact (h.plan hkeeps hplan).2 _ hview
    | clear =>
      rw [hview] at hupdate
      cases hupdate

theorem Unshortened.aligned (h : Unshortened r) : r.Aligned := by
  induction h with
  | provision h =>
    obtain ⟨table, journal', progress, -, -, -, -, rfl⟩ := provision_data h
    exact aligned_assemble
  | reopen h =>
    obtain ⟨progress, -, rfl⟩ := reopenFenced_data h
    exact aligned_assemble
  | witnesses hr witnesses ih => exact ⟨ih.attempt, ih.parked⟩
  | @reclaim r hr ih =>
    obtain ⟨haccepted, first, -, hle, hfirst, -⟩ :=
      r.journal.reclaimThrough_spec r.progress.checkpoint
    refine ⟨ih.attempt, fun parked hparked => ?_⟩
    obtain ⟨hstays, hreports⟩ := ih.parked parked hparked
    exact ⟨hstays.reclaim haccepted (hfirst ▸ hle), hreports⟩
  | step hr input hkeeps ih => exact ih.step hkeeps

/-- **The plans that keep a replica in step** are those of inputs that do not drop the end of its
journal. -/
theorem inStep_iff (hr : Unshortened r) {input : TimedInput} {plan : PlannedTransition}
    (hplan : r.plan input = .ok plan) : r.InStep plan ↔ ¬ r.DropsTail input := by
  constructor
  · intro hinStep hdrops
    exact hdrops.not_inStep hplan hinStep
  · intro hkeeps journal hjournal
    exact (hr.aligned.plan hkeeps hplan).1 r.journal journal rfl (Nat.le_refl _) hjournal

/-! ### A restart in the middle of a transfer -/

/-- A history that establishes two eras. -/
def twoEras : List LogEntry :=
  [{ slot := 3, era := 1, payload := .system (.increment 1) },
   { slot := 4, era := 1, payload := .operation ⟨0, 1⟩ [] },
   { slot := 5, era := 1, payload := .system (.increment 2) },
   { slot := 6, era := 1, payload := .operation ⟨0, 2⟩ [] }]

/-- A backup that accepted the history up to its second era change. -/
def interrupted : Option (Replica SegmentedLog) :=
  (provision 2 [1, 2, 3] weightedMajority (SegmentedLog.withTailCapacity 4) .volatile
    { primaryTimeout := 0, viewChangeBudget := 1000 }).toOption.map fun r =>
      (twoEras.take 3).foldl (fun r entry =>
        (r.step (fromPrimary entry.slot (.prepare entry 2))).1) r

/-- The same node resumed on its durable record. -/
def resumed : Option (Replica SegmentedLog) :=
  interrupted.bind fun r =>
    (reopenFenced 2 weightedMajority r.journal r.progress.toProgressData .volatile
      { primaryTimeout := 0, viewChangeBudget := 1000 }).toOption

/-- A chunk that comes late, the answer to a fetch of the earlier life. -/
def lateChunk : TimedInput := fromPrimary 6 (.newState twoEras 6 6 false)

theorem resumed_unshortened {r : Replica SegmentedLog} (h : resumed = some r) :
    Unshortened r := by
  obtain ⟨earlier, -, h⟩ := Option.bind_eq_some_iff.mp h
  exact .reopen (toOption_eq_some h)

/-- Its primary alive, the resumed node stays in step. -/
theorem resumed_inStep : ∃ (r : Replica SegmentedLog) (plan : PlannedTransition),
    resumed = some r ∧ r.plan (fromPrimary 3 (.commit 3)) = .ok plan ∧
    plan.candidate.committed = 3 ∧ r.InStep plan := by
  have hplanned : (resumed.map fun r => ((r.plan (fromPrimary 3 (.commit 3))).map fun plan =>
      plan.candidate.committed).toOption) = some (some 3) := by decide +kernel
  obtain ⟨r, hr, hplanned⟩ := Option.map_eq_some_iff.mp hplanned
  cases hplan : r.plan (fromPrimary 3 (.commit 3)) with
  | error refusal =>
    rw [hplan] at hplanned
    cases hplanned
  | ok plan =>
    rw [hplan] at hplanned
    refine ⟨r, plan, hr, hplan, Option.some.inj hplanned, ?_⟩
    refine (inStep_iff (resumed_unshortened hr) hplan).mpr ?_
    rintro ⟨sender, message, entries, through, committed, more, folded, start, suffix, journal,
      hevent, hforeign, htruncates, hdrops⟩
    cases hevent
    cases htruncates.body

/-- The journal that took the plan's mutation ends elsewhere than the plan's record. -/
def partsWays (r : Replica SegmentedLog) (input : TimedInput) : Bool :=
  match r.plan input with
  | .error _ => false
  | .ok plan =>
    match mutateJournal r.journal plan.journal with
    | .error _ => false
    | .ok journal =>
      plan.fault.isNone && (Journal.accepted journal).getD Slot.none != plan.candidate.accepted

/-- **The late chunk drops the node out of step.** Its fold stops in front of the second era
change: the journal ends there, the record at the slot behind it. -/
theorem lateChunk_parts : ¬ ∀ (r : Replica SegmentedLog) (input : TimedInput)
    (plan : PlannedTransition), Unshortened r → r.plan input = .ok plan → plan.fault = none →
      r.InStep plan := by
  intro hall
  have hparts : (resumed.map fun r => r.partsWays lateChunk) = some true := by decide +kernel
  obtain ⟨r, hr, hparts⟩ := Option.map_eq_some_iff.mp hparts
  unfold partsWays at hparts
  split at hparts
  · cases hparts
  · rename_i plan hplan
    split at hparts
    · cases hparts
    · rename_i journal hjournal
      rw [Bool.and_eq_true, Option.isNone_iff_eq_none, bne_iff_ne] at hparts
      exact hparts.2
        (hall r lateChunk plan (resumed_unshortened hr) hplan hparts.1 journal hjournal)

end Replica

end UvrrCore
