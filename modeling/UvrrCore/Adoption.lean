import UvrrCore.Released

/-!
# Adopting an offered history

A source offers the end of its history as a suffix, and `checkSuffix` answers whether the local
journal can be turned into that history and by which mutation. The offer is compared where it
overlaps the journal, not beneath its first slot: what the journal holds there above its committed
frontier is taken for the source's.

* `checkSuffix_cases`: the three mutations the check answers with.
* `SegmentedLog.accept_isOk_iff`, `SegmentedLog.installSuffix_isOk_iff`: when a log takes one.
* `adopts_iff`: when the mutation leaves exactly the source's history.
-/

namespace UvrrCore

/-! ### What a log takes -/

namespace SegmentedLog

theorem accepted_bound {l : SegmentedLog} {frontier : Nat}
    (h : Journal.accepted l = some frontier) :
    frontier + 1 = l.firstSlot + l.content.length ∧ frontier + 1 < u64Bound := by
  have hfrontier := l.wellFormed.frontier
  rwa [show l.accepted = some frontier from h] at hfrontier

theorem accept_isOk_iff {l : SegmentedLog} {frontier : Nat} {entries : List LogEntry}
    (hfrontier : Journal.accepted l = some frontier) (hne : entries ≠ []) :
    (∃ l', Journal.accept l entries = .ok l') ↔
      ContiguousFrom (frontier + 1) entries ∧ frontier + 1 + entries.length < u64Bound := by
  obtain ⟨entry, rest, rfl⟩ := List.exists_cons_of_ne_nil hne
  constructor
  · intro ⟨l', hok⟩
    obtain ⟨hrun, hlast, -, -⟩ := LawfulJournal.accept_ok hfrontier hok
    have := (accepted_bound hlast).2
    exact ⟨hrun, by omega⟩
  · intro ⟨hrun, hbound⟩
    have hdata : ∃ data, l.toLogData.accept (entry :: rest) = .ok data := by
      have hnext : l.toLogData.expectedNext = .ok (frontier + 1) := by
        unfold LogData.expectedNext
        rw [show l.accepted = some frontier from hfrontier]
        simp only [Slot.next_eq_some.mpr ⟨(accepted_bound hfrontier).2, rfl⟩]
      unfold LogData.accept
      rw [List.getLast?_eq_some_getLast hne]
      simp only [hnext, LogData.checkRun_of_contiguous hrun fun _ => hbound]
      exact ⟨_, rfl⟩
    obtain ⟨data, hdata⟩ := hdata
    show ∃ l', SegmentedLog.accept l (entry :: rest) = .ok l'
    unfold SegmentedLog.accept
    split
    · rename_i error herror
      rw [hdata] at herror
      cases herror
    · exact ⟨_, rfl⟩

theorem installSuffix_isOk_iff {l : SegmentedLog} {frontier cut : Nat} {suffix : List LogEntry}
    (hfrontier : Journal.accepted l = some frontier) (hcut : cut ≤ frontier + 1) :
    (∃ l', Journal.installSuffix l cut suffix = .ok l') ↔
      (Journal.retained l).1 ≤ cut ∧ suffix ≠ [] ∧ ContiguousFrom cut suffix ∧
        cut + suffix.length < u64Bound := by
  constructor
  · intro ⟨l', hok⟩
    obtain ⟨hret, hne, hrun, hlast, -, -⟩ := LawfulJournal.installSuffix_ok hfrontier hok
    rw [Nat.min_eq_left hcut] at hrun hlast
    have := (accepted_bound hlast).2
    have := List.length_pos_iff.mpr hne
    exact ⟨hret, hne, hrun, by omega⟩
  · intro ⟨hret, hne, hrun, hbound⟩
    have hdata : ∃ data, l.toLogData.installSuffix cut suffix = .ok data := by
      have hexpected : l.toLogData.expectedCut cut = .ok cut := by
        unfold LogData.expectedCut
        rw [show l.accepted = some frontier from hfrontier]
        simp only [Slot.next_eq_some.mpr ⟨(accepted_bound hfrontier).2, rfl⟩]
        split
        · rw [show frontier + 1 = cut by omega]
        · rfl
      have hlow : ¬ cut < l.firstSlot := Nat.not_lt.mpr hret
      unfold LogData.installSuffix
      rw [if_neg hlow, hexpected]
      simp only [LogData.checkRun_of_contiguous hrun fun _ => hbound,
        List.getLast?_eq_some_getLast hne]
      exact ⟨_, rfl⟩
    obtain ⟨data, hdata⟩ := hdata
    show ∃ l', SegmentedLog.installSuffix l cut suffix = .ok l'
    unfold SegmentedLog.installSuffix
    split
    · rename_i error herror
      rw [hdata] at herror
      cases herror
    · exact ⟨_, rfl⟩

/-- A log that begins at the first slot or later is what is left of one that begins there. -/
theorem exists_log {l : SegmentedLog} {frontier : Nat}
    (hfrontier : Journal.accepted l = some frontier) (hpos : 1 ≤ (Journal.retained l).1) :
    ∃ log, Reads l log ∧ log.length = frontier := by
  obtain ⟨hend, -⟩ := accepted_bound hfrontier
  have hfirst : 1 ≤ l.firstSlot := hpos
  have hfiller : (List.replicate (l.firstSlot - 1) (⟨0, 0, .system .void⟩ : LogEntry)).length =
      l.firstSlot - 1 := List.length_replicate
  refine ⟨List.replicate (l.firstSlot - 1) ⟨0, 0, .system .void⟩ ++ l.content,
    fun slot entry hget => ?_, ?_⟩
  · have hin := (get_isSome_iff l slot).mp (by rw [hget]; rfl)
    rw [logAt_append ?_ (by rw [hfiller]; omega), ← get_eq]
    · exact hget
    · rw [hfiller, Nat.sub_add_cancel hfirst]
      exact l.wellFormed.contiguous
  · rw [List.length_append, hfiller]
    omega

end SegmentedLog

/-! ### What the check answers -/

/-- Entries each of which has the next slot of the one before it, as far as there is a next slot,
the last one at the accepted frontier: what the shape check makes sure of. -/
structure Linked (entries : List LogEntry) (accepted : Nat) : Prop where
  ends : ∀ last, entries.getLast? = some last → last.slot = accepted
  chain : entries.IsChain fun entry next =>
    Slot.next entry.slot = some next.slot ∨ Slot.next entry.slot = none

theorem Linked.nil (accepted : Nat) : Linked [] accepted :=
  ⟨fun _ hnone => (by cases hnone), .nil⟩

theorem Linked.of_run {start accepted : Nat} {entries : List LogEntry}
    (hrun : ContiguousFrom start entries) (hend : start + entries.length = accepted + 1) :
    Linked entries accepted := by
  refine ⟨fun last hlast => ?_, ?_⟩
  · have := hrun.getLast?_slot hlast
    omega
  · clear hend
    induction entries generalizing start with
    | nil => exact .nil
    | cons entry rest ih =>
      obtain ⟨hslot, hrest⟩ := hrun
      cases rest with
      | nil => exact .singleton _
      | cons next rest =>
        refine .cons_cons ?_ (ih hrest)
        have hnext : next.slot = start + 1 := hrest.1
        unfold Slot.next
        split
        · exact .inl (by rw [hslot, hnext])
        · exact .inr rfl

theorem Linked.of_shaped {entries : List LogEntry} {accepted : Nat} (h : Shaped entries accepted) :
    Linked entries accepted := by
  obtain ⟨-, -, hrun, hend⟩ := firstSlot_of_shaped h
  exact .of_run hrun hend

theorem Linked.of_suffixShapeOk {entries : List LogEntry} {accepted : Nat}
    (h : suffixShapeOk entries accepted = true) : Linked entries accepted := by
  have hgo : ∀ (rest : List LogEntry) (expected : Option Nat),
      suffixShapeOk.go entries accepted expected rest = true →
      (∀ last, entries.getLast? = some last → last.slot = accepted) ∧
      (∀ first, rest.head? = some first → expected = some first.slot ∨ expected = none) ∧
      rest.IsChain fun entry next =>
        Slot.next entry.slot = some next.slot ∨ Slot.next entry.slot = none := by
    intro rest
    induction rest with
    | nil =>
      intro expected hgo
      refine ⟨fun last hlast => ?_, fun _ hnone => (by cases hnone), .nil⟩
      unfold suffixShapeOk.go at hgo
      rw [hlast] at hgo
      simpa using hgo
    | cons entry rest ih =>
      intro expected hgo
      have hmore : suffixShapeOk.go entries accepted (Slot.next entry.slot) rest = true ∧
          (expected = some entry.slot ∨ expected = none) := by
        unfold suffixShapeOk.go at hgo
        split at hgo
        · rw [Bool.and_eq_true] at hgo
          exact ⟨hgo.2, .inr rfl⟩
        · rw [Bool.and_eq_true, beq_iff_eq] at hgo
          exact ⟨hgo.2, .inl (congrArg some hgo.1.symm)⟩
      obtain ⟨hends, hhead, hchain⟩ := ih _ hmore.1
      refine ⟨hends, fun first hfirst => ?_, ?_⟩
      · cases hfirst
        exact hmore.2
      · cases rest with
        | nil => exact .singleton _
        | cons next rest => exact .cons_cons (hhead next rfl) hchain
  obtain ⟨hends, -, hchain⟩ := hgo entries none h
  exact ⟨hends, hchain⟩

section Scan

variable {J : Type} [Journal J] {journal : J} {localAccepted committed discharged : Nat}

/-- The comparison stops at an offered slot: one that is held with another entry, or the first
one above the frontier. -/
theorem scanSuffix_stops {slot : Nat} {entries : List LogEntry}
    (hchain : entries.IsChain fun entry next =>
      Slot.next entry.slot = some next.slot ∨ Slot.next entry.slot = none)
    (hbase : ∀ first, entries.head? = some first → first.slot ≤ localAccepted + 1)
    (hbound : localAccepted + 1 < u64Bound)
    (h : scanSuffix journal localAccepted committed discharged entries = .differsAt slot) :
    (∃ entry ∈ entries, entry.slot = slot) ∧
      (slot = localAccepted + 1 ∨
        (slot ≤ localAccepted ∧ committed < slot ∧ (Journal.get journal slot).isSome)) := by
  induction entries with
  | nil => cases h
  | cons entry rest ih =>
    have hfirst := hbase entry rfl
    have hlater : scanSuffix journal localAccepted committed discharged rest = .differsAt slot →
        entry.slot ≤ localAccepted → (∃ other ∈ entry :: rest, other.slot = slot) ∧
          (slot = localAccepted + 1 ∨
            (slot ≤ localAccepted ∧ committed < slot ∧ (Journal.get journal slot).isSome)) := by
      intro hrest hle
      have hnext : ∀ first, rest.head? = some first → first.slot ≤ localAccepted + 1 := by
        intro first hhead
        cases rest with
        | nil => cases hhead
        | cons next rest =>
          cases hhead
          rcases (List.isChain_cons_cons.mp hchain).1 with hslot | hslot
          · have := (Slot.next_eq_some.mp hslot).2
            omega
          · unfold Slot.next at hslot
            rw [if_pos (by omega)] at hslot
            cases hslot
      obtain ⟨⟨other, hmem, hother⟩, hwhere⟩ := ih hchain.tail hnext hrest
      exact ⟨⟨other, List.mem_cons_of_mem _ hmem, hother⟩, hwhere⟩
    rw [scanSuffix] at h
    split at h
    · cases h
      exact ⟨⟨entry, List.mem_cons_self, rfl⟩, .inl (by omega)⟩
    · rename_i hle
      split at h
      · rename_i held hheld
        split at h
        · exact hlater h (by omega)
        · split at h
          · cases h
          · cases h
            exact ⟨⟨entry, List.mem_cons_self, rfl⟩,
              .inr ⟨by omega, by omega, by rw [hheld]; rfl⟩⟩
      · split at h
        · exact hlater h (by omega)
        · cases h

end Scan

namespace Replica

/-- **The mutations the check answers with.** Nothing, when the offered history ends where the
local one does; the offer from the slot on where the comparison stopped; or, for a shorter history,
all of the offer. -/
theorem checkSuffix_cases {r : Replica SegmentedLog} {suffix : List LogEntry}
    {accepted committed discharged : Nat} {mutation : JournalMutation}
    (hfrontier : Journal.accepted r.journal = some r.progress.accepted)
    (hlinked : Linked suffix accepted)
    (h : r.checkSuffix suffix accepted committed discharged = .install mutation) :
    (mutation = .none ∧ accepted = r.progress.accepted) ∨
      (∃ start,
        mutation = .installSuffix start (suffix.dropWhile fun entry => entry.slot != start) ∧
        (∃ entry ∈ suffix, entry.slot = start) ∧ start ≤ accepted ∧
        start ≤ r.progress.accepted + 1 ∧ (Journal.retained r.journal).1 ≤ start) ∨
      ∃ first rest, suffix = first :: rest ∧ mutation = .installSuffix first.slot suffix ∧
        accepted < r.progress.accepted ∧ first.slot ≤ r.progress.accepted + 1 ∧
        (scanSuffix r.journal r.progress.accepted r.progress.committed discharged suffix = .agreed ∨
          ∃ start, accepted < start ∧ ∃ entry ∈ suffix, entry.slot = start) := by
  obtain ⟨hend, hbound⟩ := SegmentedLog.accepted_bound hfrontier
  have hretained : ∀ slot, slot = r.progress.accepted + 1 ∨ (slot ≤ r.progress.accepted ∧
      r.progress.committed < slot ∧ (Journal.get r.journal slot).isSome) →
      slot ≤ r.progress.accepted + 1 ∧ (Journal.retained r.journal).1 ≤ slot := by
    intro slot hwhere
    rcases hwhere with rfl | ⟨hle, -, hheld⟩
    · refine ⟨Nat.le_refl _, ?_⟩
      show r.journal.firstSlot ≤ _
      omega
    · refine ⟨by omega, Nat.le_of_not_lt fun hlt => ?_⟩
      rw [LawfulJournal.get_lt_first hlt] at hheld
      cases hheld
  unfold checkSuffix at h
  cases suffix with
  | nil =>
    simp only at h
    split at h
    · rename_i heq
      cases h
      exact .inl ⟨rfl, heq.1⟩
    · cases h
  | cons first rest =>
    simp only at h
    split at h
    · cases h
    · rename_i hconnects
      have hnear : first.slot ≤ r.progress.accepted + 1 := by
        rw [not_and, not_lt] at hconnects
        by_cases hnext : Slot.next r.progress.accepted = some first.slot
        · rw [Slot.next_eq_some] at hnext
          omega
        · exact Nat.le_succ_of_le (hconnects hnext)
      split at h
      · cases h
      · cases h
      · rename_i slot hscan
        obtain ⟨hoffered, hwhere⟩ := scanSuffix_stops hlinked.chain
          (fun entry hhead => by cases hhead; exact hnear) hbound hscan
        obtain ⟨hreach, hkept⟩ := hretained slot hwhere
        split at h
        · rename_i hlt
          split at h
          · rename_i hshorter
            cases h
            exact .inr (.inr ⟨first, rest, rfl, rfl, hshorter, hnear, .inr ⟨slot, hlt, hoffered⟩⟩)
          · rename_i hlonger
            cases h
            rcases hwhere with rfl | ⟨hle, -⟩
            · exact .inl ⟨rfl, by omega⟩
            · omega
        · rename_i hge
          cases h
          exact .inr (.inl ⟨slot, rfl, hoffered, by omega, hreach, hkept⟩)
      · rename_i hscan
        have hheld : accepted ≤ r.progress.accepted := by
          have hlast := List.getLast?_eq_some_getLast (List.cons_ne_nil first rest)
          have := (scanSuffix_agreed hscan _ (List.getLast_mem (List.cons_ne_nil first rest))).1
          rw [hlinked.ends _ hlast] at this
          exact this
        rw [Slot.next_eq_some.mpr ⟨by omega, rfl⟩, Option.getD_some,
          if_pos (Nat.lt_succ_self _)] at h
        split at h
        · rename_i hshorter
          cases h
          exact .inr (.inr ⟨first, rest, rfl, rfl, hshorter, hnear, .inl hscan⟩)
        · cases h
          exact .inl ⟨rfl, by omega⟩

/-- A shorter history that is held as offered is installed whole. -/
theorem checkSuffix_shorter {r : Replica SegmentedLog} {first : LogEntry} {rest : List LogEntry}
    {accepted committed discharged : Nat} (hbound : r.progress.accepted + 1 < u64Bound)
    (hshorter : accepted < r.progress.accepted)
    (hpassed : ∀ entry ∈ first :: rest,
      PassedOver r.journal r.progress.accepted discharged entry) :
    r.checkSuffix (first :: rest) accepted committed discharged =
      .install (.installSuffix first.slot (first :: rest)) := by
  have hnear := (hpassed first List.mem_cons_self).1
  have hconnects : ¬(Slot.next r.progress.accepted ≠ some first.slot ∧
      r.progress.accepted < first.slot) := fun hgap => absurd hgap.2 (Nat.not_lt.mpr hnear)
  unfold checkSuffix
  simp only [if_neg hconnects, scanSuffix_of_passedOver _ hpassed]
  rw [Slot.next_eq_some.mpr ⟨by omega, rfl⟩, Option.getD_some, if_pos (Nat.lt_succ_self _),
    if_pos hshorter]

end Replica

/-! ### Histories and offers -/

/-- **A source's history**: the entries of the slots from the first on, committed up to a
frontier. -/
structure SourceHistory where
  entries : List LogEntry
  committed : Nat
  run : ContiguousFrom voidSlot entries
  committed_le : committed ≤ entries.length
  bounded : entries.length + 1 < u64Bound

namespace SourceHistory

def accepted (h : SourceHistory) : Nat := h.entries.length

/-- The entries from a slot up to the accepted frontier. -/
def suffix (h : SourceHistory) (base : Nat) : List LogEntry := h.entries.drop (base - 1)

/-- The first slot the suffix covers. -/
def offerBase (h : SourceHistory) (base : Nat) : Nat := firstSlot (h.suffix base) h.accepted

theorem logAt_slot (h : SourceHistory) {slot : Nat} {entry : LogEntry}
    (hentry : logAt h.entries slot = some entry) : entry.slot = slot := by
  obtain ⟨hlow, hhigh⟩ := logAt_lt hentry
  have hread : logAt ([] ++ h.entries) slot = entryAt h.entries slot :=
    logAt_append (show ContiguousFrom (([] : List LogEntry).length + 1) h.entries from h.run) hlow
  rw [List.nil_append] at hread
  exact entryAt_slot (hread.symm.trans hentry)

theorem suffix_shaped (h : SourceHistory) (base : Nat) : Shaped (h.suffix base) h.accepted := by
  unfold suffix accepted
  by_cases hin : base - 1 < h.entries.length
  · refine .inr ⟨1 + (base - 1), Nat.le_add_right _ _, h.run.drop (base - 1) hin.le, ?_⟩
    rw [List.length_drop]
    omega
  · exact .inl (List.drop_eq_nil_of_le (by omega))

theorem suffix_offers (h : SourceHistory) (base : Nat) : Offers (h.suffix base) h.entries := by
  intro entry hmem
  obtain ⟨i, hi⟩ := List.getElem?_of_mem hmem
  unfold suffix at hi
  rw [List.getElem?_drop] at hi
  have hentry : logAt h.entries (base - 1 + i + 1) = some entry := hi
  rw [h.logAt_slot hentry]
  exact hentry

/-- The suffix covers every slot from its first one up to the accepted frontier. -/
theorem suffix_mem (h : SourceHistory) {base slot : Nat} {entry : LogEntry}
    (hlow : h.offerBase base ≤ slot) (hentry : logAt h.entries slot = some entry) :
    entry ∈ h.suffix base := by
  obtain ⟨-, -, hrun, hend⟩ := firstSlot_of_shaped (h.suffix_shaped base)
  have hhigh : slot ≤ h.accepted := (logAt_lt hentry).2
  obtain ⟨other, hmem, hslot, -⟩ := hrun.entryAt_mem slot hlow (by unfold offerBase at hlow; omega)
  have hother := h.suffix_offers base other hmem
  rw [hslot, hentry] at hother
  cases hother
  exact hmem

end SourceHistory

/-- The journal holds exactly a history: it ends where the history does, and every slot it retains
holds the history's entry. -/
def HoldsHistory (journal : SegmentedLog) (h : SourceHistory) : Prop :=
  Journal.accepted journal = some h.accepted ∧
    ∀ slot, (Journal.retained journal).1 ≤ slot → Journal.get journal slot = logAt h.entries slot

namespace Replica

/-- **The local side of an offer.** The journal ends at the accepted frontier and has let go of
nothing above the checkpoint; what it holds up to the local committed frontier is the source's. -/
structure AgreesCommitted (r : Replica SegmentedLog) (h : SourceHistory) : Prop where
  frontier : Journal.accepted r.journal = some r.progress.accepted
  first : (Journal.retained r.journal).1 ≤ r.progress.checkpoint + 1
  committed : r.progress.committed ≤ h.committed
  agrees : ∀ slot entry, slot ≤ r.progress.committed → Journal.get r.journal slot = some entry →
    logAt h.entries slot = some entry

/-- The check of the suffix from `base` on never answers a conflict, and where it answers an
install, the journal behind the mutation holds exactly the source's history. -/
def Adopts (r : Replica SegmentedLog) (h : SourceHistory) (base : Nat) : Prop :=
  r.checkSuffix (h.suffix base) h.accepted h.committed r.progress.checkpoint ≠ .conflict ∧
    ∀ mutation, r.checkSuffix (h.suffix base) h.accepted h.committed r.progress.checkpoint =
        .install mutation →
      ∃ journal, mutateJournal r.journal mutation = .ok journal ∧ HoldsHistory journal h

/-- The offer reaches down to the local history: to the slot after its accepted frontier or below;
or nothing is offered, and the source has committed as much as the local side accepted. -/
def Connects (r : Replica SegmentedLog) (h : SourceHistory) (base : Nat) : Prop :=
  if h.suffix base = [] then
    h.accepted = r.progress.accepted ∧ h.committed = r.progress.accepted
  else h.offerBase base ≤ r.progress.accepted + 1

/-- What the journal holds between the committed frontier and the offer's first slot is the
source's. -/
def AgreesBeneath (r : Replica SegmentedLog) (h : SourceHistory) (base : Nat) : Prop :=
  ∀ slot entry, r.progress.committed < slot → slot < h.offerBase base →
    Journal.get r.journal slot = some entry → logAt h.entries slot = some entry

/-- The offer ends below the local frontier, begins below what the journal retains, and is held as
offered from there on. -/
def RestatesReclaimed (r : Replica SegmentedLog) (h : SourceHistory) (base : Nat) : Prop :=
  h.suffix base ≠ [] ∧ h.accepted < r.progress.accepted ∧
    h.offerBase base < (Journal.retained r.journal).1 ∧
    ∀ slot entry, h.offerBase base ≤ slot → slot ≤ h.accepted →
      Journal.get r.journal slot = some entry → logAt h.entries slot = some entry

variable {r : Replica SegmentedLog} {h : SourceHistory} {base : Nat}

/-! ### The comparison of an offer -/

/-- The offered entries never contradict what is committed, and each can be compared or is vouched
for by the checkpoint. -/
theorem AgreesCommitted.scan (hlocal : r.AgreesCommitted h) {entries : List LogEntry}
    (hoffers : Offers entries h.entries) :
    scanSuffix r.journal r.progress.accepted r.progress.committed r.progress.checkpoint entries =
        .agreed ∨
      ∃ slot, scanSuffix r.journal r.progress.accepted r.progress.committed r.progress.checkpoint
        entries = .differsAt slot := by
  induction entries with
  | nil => exact .inl rfl
  | cons entry rest ih =>
    have hrest := ih fun other hmem => hoffers other (List.mem_cons_of_mem _ hmem)
    have hentry := hoffers entry List.mem_cons_self
    rw [scanSuffix]
    split
    · exact .inr ⟨_, rfl⟩
    · rename_i hle
      split
      · rename_i held hheld
        split
        · exact hrest
        · rename_i hne
          split
          · rename_i hcommitted
            have hagreed := hlocal.agrees entry.slot held hcommitted hheld
            rw [hentry] at hagreed
            exact absurd (Option.some.inj hagreed).symm hne
          · exact .inr ⟨_, rfl⟩
      · rename_i hnone
        split
        · exact hrest
        · rename_i habove
          have hfirst := hlocal.first
          have hheld := LawfulJournal.get_isSome hlocal.frontier
            (show (Journal.retained r.journal).1 ≤ entry.slot by omega)
            (show entry.slot ≤ r.progress.accepted by omega)
          rw [hnone] at hheld
          cases hheld

/-- Entries that the journal holds as offered, as far as it holds them, are all passed over. -/
theorem AgreesCommitted.passedOver (hlocal : r.AgreesCommitted h) {entries : List LogEntry}
    (hle : ∀ entry ∈ entries, entry.slot ≤ r.progress.accepted)
    (hheld : ∀ entry ∈ entries, ∀ held, Journal.get r.journal entry.slot = some held →
      held = entry) :
    ∀ entry ∈ entries, PassedOver r.journal r.progress.accepted r.progress.checkpoint entry := by
  refine fun entry hmem => ⟨hle entry hmem, ?_⟩
  cases hget : Journal.get r.journal entry.slot with
  | some held => exact .inl (congrArg some (hheld entry hmem held hget))
  | none =>
    refine .inr ⟨rfl, ?_⟩
    by_contra habove
    have hfirst := hlocal.first
    have hsome := LawfulJournal.get_isSome hlocal.frontier
      (show (Journal.retained r.journal).1 ≤ entry.slot by omega) (hle entry hmem)
    rw [hget] at hsome
    cases hsome

/-! ### The answer to an offer -/

/-- An offer that connects is installed. -/
theorem AgreesCommitted.installs (hlocal : r.AgreesCommitted h) (hconnects : r.Connects h base) :
    ∃ mutation, r.checkSuffix (h.suffix base) h.accepted h.committed r.progress.checkpoint =
      .install mutation := by
  have hscan := hlocal.scan (h.suffix_offers base)
  unfold Connects SourceHistory.offerBase at hconnects
  unfold checkSuffix
  cases hsuffix : h.suffix base with
  | nil =>
    rw [if_pos hsuffix] at hconnects
    simp only [if_pos hconnects]
    exact ⟨_, rfl⟩
  | cons first rest =>
    rw [hsuffix] at hscan hconnects
    rw [if_neg (List.cons_ne_nil _ _)] at hconnects
    have hnear : first.slot ≤ r.progress.accepted + 1 := hconnects
    have hbound := (SegmentedLog.accepted_bound hlocal.frontier).2
    have hreaches : ¬(Slot.next r.progress.accepted ≠ some first.slot ∧
        r.progress.accepted < first.slot) := by
      intro ⟨hne, hlt⟩
      exact hne (Slot.next_eq_some.mpr ⟨by omega, by omega⟩)
    simp only [if_neg hreaches]
    rcases hscan with hagreed | ⟨slot, hdiffers⟩
    · simp only [hagreed]
      split
      · split <;> exact ⟨_, rfl⟩
      · exact ⟨_, rfl⟩
    · simp only [hdiffers]
      split
      · split <;> exact ⟨_, rfl⟩
      · exact ⟨_, rfl⟩

/-- An offer that does not connect is a gap. -/
theorem gap_of_not_connects (hconnects : ¬ r.Connects h base) :
    ∃ expected got, r.checkSuffix (h.suffix base) h.accepted h.committed r.progress.checkpoint =
      .gap expected got := by
  unfold Connects SourceHistory.offerBase at hconnects
  unfold checkSuffix
  cases hsuffix : h.suffix base with
  | nil =>
    rw [if_pos hsuffix] at hconnects
    simp only [if_neg hconnects]
    exact ⟨_, _, rfl⟩
  | cons first rest =>
    rw [hsuffix, if_neg (List.cons_ne_nil _ _)] at hconnects
    have hfar : r.progress.accepted + 1 < first.slot := Nat.not_le.mp hconnects
    have hgap : Slot.next r.progress.accepted ≠ some first.slot ∧
        r.progress.accepted < first.slot := by
      refine ⟨fun hnext => ?_, by omega⟩
      have := (Slot.next_eq_some.mp hnext).2
      omega
    simp only [if_pos hgap]
    exact ⟨_, _, rfl⟩

/-! ### The journal behind the mutation -/

/-- The history begins at the first slot, and so does what is left of it. -/
theorem AgreesCommitted.first_pos (hlocal : r.AgreesCommitted h) :
    1 ≤ (Journal.retained r.journal).1 := by
  by_contra hzero
  have hsome : (Journal.get r.journal 0).isSome :=
    LawfulJournal.get_isSome hlocal.frontier (by omega) (Nat.zero_le _)
  obtain ⟨entry, hentry⟩ := Option.isSome_iff_exists.mp hsome
  have hagreed := hlocal.agrees 0 entry (Nat.zero_le _) hentry
  cases hagreed

/-- The log takes the mutation of an accepted offer, unless that is all of an offer that begins
below what the log retains. -/
theorem AgreesCommitted.mutates (hlocal : r.AgreesCommitted h)
    (hrestates : ¬ r.RestatesReclaimed h base) {mutation : JournalMutation}
    (hcheck : r.checkSuffix (h.suffix base) h.accepted h.committed r.progress.checkpoint =
      .install mutation) : ∃ journal, mutateJournal r.journal mutation = .ok journal := by
  have hshaped := h.suffix_shaped base
  have hoffers := h.suffix_offers base
  obtain ⟨-, -, hrun, hend⟩ := firstSlot_of_shaped hshaped
  have hlast : h.accepted + 1 < u64Bound := h.bounded
  rcases checkSuffix_cases hlocal.frontier (.of_shaped hshaped) hcheck with
    ⟨rfl, -⟩ | ⟨start, rfl, ⟨entry, hmem, hentry⟩, hle, hreach, hret⟩ |
    ⟨first, rest, hsuffix, rfl, hshorter, hreach, hwhy⟩
  · exact ⟨_, rfl⟩
  · have hlow := (hrun.mem_slot hmem).1
    rw [hentry] at hlow
    rw [dropWhile_slot_ne hrun hlow]
    refine (SegmentedLog.installSuffix_isOk_iff hlocal.frontier hreach).mpr ⟨hret, ?_, ?_, ?_⟩
    · intro hnil
      have := List.drop_eq_nil_iff.mp hnil
      omega
    · have := hrun.drop (start - firstSlot (h.suffix base) h.accepted) (by omega)
      rwa [Nat.add_sub_cancel' hlow] at this
    · rw [List.length_drop]
      omega
  · have hfirst : firstSlot (h.suffix base) h.accepted = first.slot := by rw [hsuffix]; rfl
    rw [hfirst] at hrun hend
    refine (SegmentedLog.installSuffix_isOk_iff hlocal.frontier hreach).mpr
      ⟨?_, by rw [hsuffix]; exact List.cons_ne_nil _ _, hrun, by omega⟩
    rcases hwhy with hagreed | ⟨start, hlt, entry, hmem, hentry⟩
    · by_contra hbelow
      refine hrestates ⟨by rw [hsuffix]; exact List.cons_ne_nil _ _, hshorter, ?_, ?_⟩
      · unfold SourceHistory.offerBase
        omega
      · intro slot held hlow hhigh hget
        have hpos : 1 ≤ slot := by
          unfold SourceHistory.offerBase at hlow
          have := (firstSlot_of_shaped hshaped).1
          omega
        obtain ⟨offered, hoffered⟩ : ∃ entry, logAt h.entries slot = some entry :=
          logAt_isSome hpos hhigh
        have hin := h.suffix_mem hlow hoffered
        have hslot := h.logAt_slot hoffered
        rcases (scanSuffix_agreed hagreed offered hin).2 with hsame | ⟨hnone, -⟩
        · rw [hslot, hget] at hsame
          cases hsame
          exact hoffered
        · rw [hslot, hget] at hnone
          cases hnone
    · have := (hrun.mem_slot hmem).2
      omega

/-- **What the journal behind an accepted offer holds**: the source's history, if and only if what
is held beneath the offer is the source's. -/
theorem AgreesCommitted.holds_iff (hlocal : r.AgreesCommitted h) {mutation : JournalMutation}
    {journal : SegmentedLog}
    (hcheck : r.checkSuffix (h.suffix base) h.accepted h.committed r.progress.checkpoint =
      .install mutation)
    (hjournal : mutateJournal r.journal mutation = .ok journal) :
    HoldsHistory journal h ↔ r.AgreesBeneath h base := by
  obtain ⟨log, hreads, hlength⟩ := SegmentedLog.exists_log hlocal.frontier hlocal.first_pos
  obtain ⟨log', hmutates, hlen, hnear, hbelow, habove⟩ :=
    checkSuffix_spliced hreads hlength.symm (h.suffix_offers base) (h.suffix_shaped base) hcheck
  have hfrontier : Journal.accepted r.journal = some log.length := by
    rw [hlength]
    exact hlocal.frontier
  obtain ⟨hreads', hfrontier', hfirst'⟩ := hmutates.reads hreads hfrontier hjournal
  -- what the log behind the journal keeps of the old one is what the old journal holds
  have hkept : ∀ slot entry, (Journal.retained r.journal).1 ≤ slot → slot ≤ log.length →
      logAt log slot = some entry → Journal.get r.journal slot = some entry := by
    intro slot entry hlow hhigh hentry
    obtain ⟨held, hheld⟩ := Option.isSome_iff_exists.mp
      (LawfulJournal.get_isSome hfrontier hlow hhigh)
    have := hreads slot held hheld
    rw [hentry] at this
    cases this
    exact hheld
  have hbeneath : ∀ slot entry, Journal.get journal slot = some entry → slot < h.offerBase base →
      Journal.get r.journal slot = some entry := by
    intro slot entry hget hlt
    have hlow : (Journal.retained r.journal).1 ≤ slot := by
      rw [← hfirst']
      exact Nat.le_of_not_lt fun hlt => by rw [LawfulJournal.get_lt_first hlt] at hget; cases hget
    refine hkept slot entry hlow (by unfold SourceHistory.offerBase at hlt; omega) ?_
    rw [← hbelow slot hlt]
    exact hreads' slot entry hget
  constructor
  · rintro ⟨-, hholds⟩ slot entry hcommitted hlt hget
    have hentry := hreads slot entry hget
    have hlow : (Journal.retained journal).1 ≤ slot := by
      rw [hfirst']
      exact Nat.le_of_not_lt fun hlt => by rw [LawfulJournal.get_lt_first hlt] at hget; cases hget
    have hbound := (firstSlot_of_shaped (h.suffix_shaped base)).2.1
    obtain ⟨held, hheld⟩ := Option.isSome_iff_exists.mp
      (LawfulJournal.get_isSome hfrontier' hlow
        (by rw [hlen]; unfold SourceHistory.offerBase at hlt; omega))
    have hsame := hbeneath slot held hheld hlt
    rw [hget] at hsame
    cases hsame
    rw [← hholds slot hlow]
    exact hheld
  · intro hagrees
    have hsound : ∀ slot entry, Journal.get journal slot = some entry →
        logAt h.entries slot = some entry := by
      intro slot entry hget
      by_cases hlt : slot < h.offerBase base
      · have hold := hbeneath slot entry hget hlt
        by_cases hcommitted : slot ≤ r.progress.committed
        · exact hlocal.agrees slot entry hcommitted hold
        · exact hagrees slot entry (by omega) hlt hold
      · obtain ⟨end_, hend_, hle⟩ := LawfulJournal.get_le hget
        rw [hfrontier'] at hend_
        cases hend_
        rcases habove slot (Nat.not_lt.mp hlt) (hlen ▸ hle) with heq | ⟨hcheckpoint, heq⟩
        · rw [← heq]
          exact hreads' slot entry hget
        · have hlow : (Journal.retained r.journal).1 ≤ slot := by
            rw [← hfirst']
            exact Nat.le_of_not_lt fun hlt => by
              rw [LawfulJournal.get_lt_first hlt] at hget; cases hget
          have := r.progress.checkpoint_le_applied
          have := r.progress.applied_le_committed
          have := r.progress.committed_le_accepted
          have hlog : r.progress.accepted = log.length := hlength.symm
          refine hlocal.agrees slot entry (by omega) (hkept slot entry hlow (by omega) ?_)
          rw [← heq]
          exact hreads' slot entry hget
    refine ⟨by rw [hfrontier', hlen], fun slot hlow => ?_⟩
    cases hget : Journal.get journal slot with
    | some entry => exact (hsound slot entry hget).symm
    | none =>
      cases hentry : logAt h.entries slot with
      | none => rfl
      | some entry =>
        have hsome := LawfulJournal.get_isSome hfrontier' hlow (by
          rw [hlen]
          exact (logAt_lt hentry).2)
        rw [hget] at hsome
        cases hsome

/-- An offer that restates what was reclaimed is answered with an install of all of it. -/
theorem AgreesCommitted.restates (hlocal : r.AgreesCommitted h) (hconnects : r.Connects h base)
    (hrestates : r.RestatesReclaimed h base) :
    ∃ start suffix, r.checkSuffix (h.suffix base) h.accepted h.committed r.progress.checkpoint =
        .install (.installSuffix start suffix) ∧
      start < (Journal.retained r.journal).1 ∧ start ≤ r.progress.accepted + 1 := by
  obtain ⟨hne, hshorter, hbelow, hagrees⟩ := hrestates
  obtain ⟨-, -, hrun, hend⟩ := firstSlot_of_shaped (h.suffix_shaped base)
  have hpassed : ∀ entry ∈ h.suffix base,
      PassedOver r.journal r.progress.accepted r.progress.checkpoint entry := by
    refine hlocal.passedOver (fun entry hmem => ?_) fun entry hmem held hget => ?_
    · have := (hrun.mem_slot hmem).2
      omega
    · obtain ⟨hlow, hhigh⟩ := hrun.mem_slot hmem
      have hsame := hagrees entry.slot held hlow (by omega) hget
      rw [h.suffix_offers base entry hmem] at hsame
      exact (Option.some.inj hsame).symm
  unfold Connects at hconnects
  rw [if_neg hne] at hconnects
  unfold SourceHistory.offerBase at hconnects hbelow
  obtain ⟨first, rest, hsuffix⟩ := List.exists_cons_of_ne_nil hne
  rw [hsuffix] at hconnects hbelow hpassed
  have hnear : first.slot ≤ r.progress.accepted + 1 := hconnects
  have hbound := (SegmentedLog.accepted_bound hlocal.frontier).2
  rw [hsuffix]
  exact ⟨first.slot, first :: rest, checkSuffix_shorter hbound hshorter hpassed, hbelow, hnear⟩

/-- **When the check adopts an offered history**: whenever an offer connects, what is held beneath
it has to be the source's, and it must not restate a reclaimed part of a longer history. -/
theorem adopts_iff (hlocal : r.AgreesCommitted h) : r.Adopts h base ↔
    (r.Connects h base → r.AgreesBeneath h base ∧ ¬ r.RestatesReclaimed h base) := by
  constructor
  · rintro ⟨-, hadopts⟩ hconnects
    obtain ⟨mutation, hcheck⟩ := hlocal.installs hconnects
    obtain ⟨journal, hjournal, hholds⟩ := hadopts mutation hcheck
    refine ⟨(hlocal.holds_iff hcheck hjournal).mp hholds, fun hrestates => ?_⟩
    obtain ⟨start, suffix, hrestated, hbelow, hreach⟩ := hlocal.restates hconnects hrestates
    rw [hcheck] at hrestated
    cases hrestated
    have hret := ((SegmentedLog.installSuffix_isOk_iff hlocal.frontier hreach).mp
      ⟨journal, hjournal⟩).1
    omega
  · intro hfits
    by_cases hconnects : r.Connects h base
    · obtain ⟨hagrees, hrestates⟩ := hfits hconnects
      obtain ⟨mutation, hcheck⟩ := hlocal.installs hconnects
      refine ⟨fun hconflict => ?_, fun answer hanswer => ?_⟩
      · rw [hcheck] at hconflict
        cases hconflict
      · obtain ⟨journal, hjournal⟩ := hlocal.mutates hrestates hanswer
        exact ⟨journal, hjournal, (hlocal.holds_iff hanswer hjournal).mpr hagrees⟩
    · obtain ⟨expected, got, hgap⟩ := gap_of_not_connects (r := r) hconnects
      unfold Adopts
      rw [hgap]
      exact ⟨fun hconflict => (by cases hconflict), fun _ hinstall => (by cases hinstall)⟩

/-! ### An uncommitted entry that stays -/

/-- The genesis entries, and another operation at the third slot. -/
def otherEntries : List LogEntry :=
  genesisEntries [1, 2, 3] 1 ++
    [{ slot := 3, era := 1, payload := .operation { msb := 0, lsb := 1 } [] }]

/-- The history of a source that committed the other operation. -/
def otherHistory : SourceHistory where
  entries := otherEntries
  committed := 3
  run := ⟨rfl, rfl, rfl, trivial⟩
  committed_le := Nat.le_refl _
  bounded := by decide

/-- A backup that accepted the idle client's operation at the third slot. -/
def preparedThird : Option (Replica SegmentedLog) :=
  freshThird.map fun fresh => (fresh.step (prepareNext 3)).1

theorem preparedThird_state {r : Replica SegmentedLog} (h : preparedThird = some r) :
    r.progress.accepted = 3 ∧ r.progress.committed = 2 ∧ r.progress.checkpoint = 0 ∧
      Journal.accepted r.journal = some 3 ∧ (Journal.retained r.journal).1 = 1 ∧
      (List.range 4).map (Journal.get r.journal) =
        none :: ((genesisEntries [1, 2, 3] 1).map some ++ [some (clientEntry 3)]) := by
  have hrecord : (preparedThird.map fun r => (r.progress.accepted, r.progress.committed,
      r.progress.checkpoint, Journal.accepted r.journal, (Journal.retained r.journal).1)) =
        some (3, 2, 0, some 3, 1) := by decide +kernel
  have hheld : (preparedThird.map fun r => (List.range 4).map (Journal.get r.journal)) =
      some (none :: ((genesisEntries [1, 2, 3] 1).map some ++ [some (clientEntry 3)])) := by
    decide +kernel
  rw [h] at hrecord hheld
  simp only [Option.map_some, Option.some.injEq, Prod.mk.injEq] at hrecord hheld
  obtain ⟨haccepted, hcommitted, hcheckpoint, hfrontier, hfirst⟩ := hrecord
  exact ⟨haccepted, hcommitted, hcheckpoint, hfrontier, hfirst, hheld⟩

theorem preparedThird_agrees {r : Replica SegmentedLog} (h : preparedThird = some r) :
    r.AgreesCommitted otherHistory := by
  obtain ⟨haccepted, hcommitted, hcheckpoint, hfrontier, hfirst, hheld⟩ := preparedThird_state h
  refine ⟨by rw [haccepted, hfrontier], by omega, ?_, fun slot entry hle hget => ?_⟩
  · rw [hcommitted]
    decide
  · have hslots : slot = 0 ∨ slot = 1 ∨ slot = 2 := by omega
    have hread : ((List.range 4).map (Journal.get r.journal))[slot]? = some (some entry) := by
      rw [List.getElem?_map, List.getElem?_range (by omega), Option.map_some, hget]
    rw [hheld] at hread
    rcases hslots with rfl | rfl | rfl
    all_goals
      cases hread
      try rfl

/-- The entry is offered, and replaces the local one. -/
theorem adopts_other : ∃ r : Replica SegmentedLog, r.AgreesCommitted otherHistory ∧
    r.progress.accepted = 3 ∧ r.Adopts otherHistory 3 := by
  obtain ⟨r, hr⟩ := Option.isSome_iff_exists.mp (show preparedThird.isSome by decide +kernel)
  have hlocal := preparedThird_agrees hr
  obtain ⟨haccepted, hcommitted, -⟩ := preparedThird_state hr
  refine ⟨r, hlocal, haccepted, (adopts_iff hlocal).mpr fun _ => ⟨?_, fun hrestates => ?_⟩⟩
  · intro slot entry hlow hlt _
    have hbase : otherHistory.offerBase 3 = 3 := rfl
    omega
  · have hshorter : 3 < r.progress.accepted := hrestates.2.1
    omega

/-- Nothing is offered, everything is committed at the source, and the local entry stays. -/
theorem keeps_diverged : ∃ r : Replica SegmentedLog, r.AgreesCommitted otherHistory ∧
    r.checkSuffix (otherHistory.suffix 4) otherHistory.accepted otherHistory.committed
        r.progress.checkpoint = .install .none ∧
      Journal.get r.journal 3 = some (clientEntry 3) ∧
      logAt otherHistory.entries 3 ≠ some (clientEntry 3) ∧ ¬ r.Adopts otherHistory 4 := by
  obtain ⟨r, hr⟩ := Option.isSome_iff_exists.mp (show preparedThird.isSome by decide +kernel)
  obtain ⟨haccepted, hcommitted, hcheckpoint, hfrontier, hfirst, hheld⟩ := preparedThird_state hr
  have hcheck : r.checkSuffix (otherHistory.suffix 4) otherHistory.accepted otherHistory.committed
      r.progress.checkpoint = .install .none := by
    unfold checkSuffix
    rw [haccepted]
    rfl
  have hthird : Journal.get r.journal 3 = some (clientEntry 3) := by
    have hread :
        ((List.range 4).map (Journal.get r.journal))[3]? = some (Journal.get r.journal 3) :=
      rfl
    rw [hheld] at hread
    exact (Option.some.inj hread).symm
  have hother : logAt otherHistory.entries 3 ≠ some (clientEntry 3) := by decide
  refine ⟨r, preparedThird_agrees hr, hcheck, hthird, hother, fun hadopts => ?_⟩
  obtain ⟨journal, hjournal, -, hholds⟩ := hadopts.2 _ hcheck
  cases hjournal
  rw [hholds 3 (by omega)] at hthird
  exact hother hthird

end Replica

end UvrrCore
