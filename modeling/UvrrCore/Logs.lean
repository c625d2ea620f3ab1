import UvrrCore.Replica.Spec

/-!
# Whole logs behind the journals

A journal may have let go of its oldest entries. `Reads` says that what it still holds is part of
a log whose slot `s` is at position `s - 1`. Appending and installing a suffix do to the log what
they do to the journal (`Mutates`), and the log behind an accepted suffix is the offered one from
the suffix's first slot on (`checkSuffix_spliced`).
-/

namespace UvrrCore

/-- The entry of a log at a slot. -/
def logAt (log : List LogEntry) : Nat → Option LogEntry
  | 0 => none
  | i + 1 => log[i]?

/-- What a journal holds is part of the log. -/
def Reads {J : Type} [Journal J] (journal : J) (log : List LogEntry) : Prop :=
  ∀ slot entry, Journal.get journal slot = some entry → logAt log slot = some entry

/-- Every offered entry stands in the log. -/
def Offers (entries log : List LogEntry) : Prop :=
  ∀ entry ∈ entries, logAt log entry.slot = some entry

/-- A run of entries that ends at a slot, or no entries. -/
def Shaped (entries : List LogEntry) (accepted : Nat) : Prop :=
  entries = [] ∨ ∃ start, 1 ≤ start ∧ ContiguousFrom start entries ∧
    start + entries.length = accepted + 1

/-- The first slot an offer covers. -/
def firstSlot (entries : List LogEntry) (accepted : Nat) : Nat :=
  match entries with
  | [] => accepted + 1
  | entry :: _ => entry.slot

/-- What a mutation does to a log. -/
def Mutates (log : List LogEntry) (mutation : JournalMutation) (log' : List LogEntry) : Prop :=
  match mutation with
  | .none => log' = log
  | .accept entries => log' = log ++ entries
  | .installSuffix start suffix =>
    1 ≤ start ∧ start ≤ log.length + 1 ∧ log' = log.take (start - 1) ++ suffix

/-! ### Slots of a log -/

theorem logAt_lt {log : List LogEntry} {slot : Nat} {entry : LogEntry}
    (h : logAt log slot = some entry) : 1 ≤ slot ∧ slot ≤ log.length := by
  cases slot with
  | zero => cases h
  | succ i =>
    have := (List.getElem?_eq_some_iff.mp h).1
    omega

theorem logAt_isSome {log : List LogEntry} {slot : Nat} (h : 1 ≤ slot) (h' : slot ≤ log.length) :
    ∃ entry, logAt log slot = some entry := by
  cases slot with
  | zero => omega
  | succ i => exact ⟨log[i], List.getElem?_eq_getElem (by omega)⟩

theorem logAt_append_left {log more : List LogEntry} {slot : Nat} (h : slot ≤ log.length) :
    logAt (log ++ more) slot = logAt log slot := by
  cases slot with
  | zero => rfl
  | succ i => exact List.getElem?_append_left (by omega)

theorem logAt_append {log more : List LogEntry} (hrun : ContiguousFrom (log.length + 1) more)
    {slot : Nat} (h : log.length < slot) : logAt (log ++ more) slot = entryAt more slot := by
  cases slot with
  | zero => omega
  | succ i =>
    rw [hrun.entryAt_eq, if_neg (by omega)]
    show (log ++ more)[i]? = _
    rw [List.getElem?_append_right (by omega)]
    congr 1
    omega

theorem logAt_take {log : List LogEntry} {count slot : Nat} (h : slot ≤ count) :
    logAt (log.take count) slot = logAt log slot := by
  cases slot with
  | zero => rfl
  | succ i => exact List.getElem?_take_of_lt (by omega)

/-- A log cut before a slot and continued from there. -/
theorem logAt_splice (log : List LogEntry) {suffix : List LogEntry} {start : Nat} (hstart : 1 ≤ start)
    (hle : start ≤ log.length + 1) (hrun : ContiguousFrom start suffix) (slot : Nat) :
    logAt (log.take (start - 1) ++ suffix) slot =
      if slot < start then logAt log slot else entryAt suffix slot := by
  have hlen : (log.take (start - 1)).length = start - 1 := by
    rw [List.length_take]
    omega
  split
  · rw [logAt_append_left (by omega), logAt_take (by omega)]
  · rw [logAt_append (by rw [hlen]; exact (Nat.sub_add_cancel hstart).symm ▸ hrun) (by omega)]

/-- Logs of one length that read the same are one log. -/
theorem eq_of_logAt {xs ys : List LogEntry} (hlen : xs.length = ys.length)
    (h : ∀ slot, 1 ≤ slot → slot ≤ xs.length → logAt xs slot = logAt ys slot) : xs = ys := by
  refine List.ext_getElem? fun i => ?_
  by_cases hi : i < xs.length
  · exact h (i + 1) (by omega) (by omega)
  · rw [List.getElem?_eq_none (by omega), List.getElem?_eq_none (by omega)]

theorem firstSlot_of_shaped {entries : List LogEntry} {accepted : Nat}
    (h : Shaped entries accepted) :
    1 ≤ firstSlot entries accepted ∧ firstSlot entries accepted ≤ accepted + 1 ∧
      ContiguousFrom (firstSlot entries accepted) entries ∧
      firstSlot entries accepted + entries.length = accepted + 1 := by
  rcases h with rfl | ⟨start, hpos, hrun, hend⟩
  · exact ⟨Nat.le_add_left _ _, Nat.le_refl _, trivial, Nat.add_zero _⟩
  · cases entries with
    | nil =>
      exact ⟨Nat.le_add_left _ _, Nat.le_refl _, trivial, Nat.add_zero _⟩
    | cons entry rest =>
      have hslot : entry.slot = start := hrun.1
      simp only [firstSlot, hslot]
      exact ⟨hpos, by simp only [List.length_cons] at hend; omega, hrun, hend⟩

/-! ### Runs cut short -/

/-- The part of a run up to a slot is a run. -/
theorem filter_run {start last : Nat} {entries : List LogEntry}
    (h : ContiguousFrom start entries) :
    entries.filter (fun entry => decide (entry.slot ≤ last)) = entries.take (last + 1 - start) := by
  induction entries generalizing start with
  | nil => simp
  | cons entry rest ih =>
    obtain ⟨hslot, hrest⟩ := h
    rw [List.filter_cons]
    by_cases hle : entry.slot ≤ last
    · rw [if_pos (by simpa using hle), ih hrest,
        show last + 1 - start = last + 1 - (start + 1) + 1 by omega, List.take_succ_cons]
    · rw [if_neg (by simpa using hle), ih hrest, show last + 1 - start = 0 by omega,
        show last + 1 - (start + 1) = 0 by omega, List.take_zero, List.take_zero]

theorem filter_shaped {last through : Nat} {entries : List LogEntry}
    (h : Shaped entries through) (hlast : last ≤ through)
    (hfirst : firstSlot entries through ≤ last) :
    Shaped (entries.filter fun entry => decide (entry.slot ≤ last)) last ∧
      firstSlot (entries.filter fun entry => decide (entry.slot ≤ last)) last =
        firstSlot entries through := by
  obtain ⟨hpos, -, hrun, hend⟩ := firstSlot_of_shaped h
  cases entries with
  | nil =>
    have : firstSlot [] through = through + 1 := rfl
    omega
  | cons entry rest =>
    have hslot : firstSlot (entry :: rest) through = entry.slot := rfl
    rw [hslot] at hpos hrun hend hfirst ⊢
    have htake : ∃ count, last + 1 - entry.slot = count + 1 := ⟨last - entry.slot, by omega⟩
    obtain ⟨count, hcount⟩ := htake
    rw [filter_run hrun, hcount, List.take_succ_cons]
    refine ⟨Or.inr ⟨entry.slot, hpos, ?_, ?_⟩, rfl⟩
    · have hsplit : ContiguousFrom entry.slot ((entry :: rest).take (count + 1) ++
          (entry :: rest).drop (count + 1)) := by
        rw [List.take_append_drop]
        exact hrun
      exact (contiguousFrom_append.mp hsplit).1
    · simp only [List.length_cons, List.length_take] at hend ⊢
      omega

/-- The covered part of a chunk reads like the whole of it, as far as it goes. -/
theorem entryAt_covered (entries : List LogEntry) {covered slot : Nat} (h : slot ≤ covered) :
    entryAt (entries.filter fun entry => decide (entry.slot ≤ covered)) slot =
      entryAt entries slot := by
  unfold entryAt
  rw [List.find?_filter]
  congr 1
  funext entry
  by_cases hslot : entry.slot = slot
  · simp [hslot, h]
  · simp [hslot]

/-! ### Runs read from a journal -/

section Journal

variable {J : Type} [Journal J] [LawfulJournal J]

theorem Reads.slot {journal : J} {log : List LogEntry} (h : Reads journal log) {slot : Nat}
    {entry : LogEntry} (hget : Journal.get journal slot = some entry) :
    entry.slot = slot ∧ logAt log entry.slot = some entry := by
  have hslot := LawfulJournal.get_slot hget
  exact ⟨hslot, by rw [hslot]; exact h slot entry hget⟩

/-- The newest entries of a journal are a run that ends at the cursor. -/
theorem journalTail_run {journal : J} {log : List LogEntry} (h : Reads journal log)
    (budget : Nat) (cursor bytes : Nat) :
    Offers (journalTail journal budget cursor bytes) log ∧
      Shaped (journalTail journal budget cursor bytes) cursor := by
  have hempty : ∀ cursor, Offers [] log ∧ Shaped [] cursor := fun cursor =>
    ⟨fun _ hmem => (nomatch hmem), Or.inl rfl⟩
  induction cursor generalizing bytes with
  | zero =>
    unfold journalTail journalTail.tailAt
    simp only
    split
    · exact hempty 0
    · split
      · exact hempty 0
      · rename_i entry hget
        have := (logAt_lt (h 0 entry hget)).1
        omega
  | succ cursor ih =>
    unfold journalTail journalTail.tailAt
    simp only
    split
    · exact hempty _
    · split
      · exact hempty _
      · rename_i entry hget
        split
        · exact hempty _
        · obtain ⟨hoffers, hshaped⟩ := ih (bytes + entry.packedLen)
          obtain ⟨hslot, hentry⟩ := h.slot hget
          refine ⟨fun other hmem => ?_, Or.inr ?_⟩
          · rcases List.mem_append.mp hmem with hmem | hmem
            · exact hoffers other hmem
            · rw [List.mem_singleton] at hmem
              rw [hmem]
              exact hentry
          · obtain ⟨hpos, -, hrun, hend⟩ := firstSlot_of_shaped hshaped
            refine ⟨_, hpos, contiguousFrom_append.mpr ⟨hrun, ?_, trivial⟩, ?_⟩
            · rw [hend]
              exact hslot
            · rw [List.length_append, List.length_singleton]
              omega

theorem takeFitting_spec (budget bytes : Nat) (entries : List LogEntry) :
    (takeFitting budget bytes entries).1 <+: entries := by
  induction entries generalizing bytes with
  | nil => exact List.prefix_rfl
  | cons entry rest ih =>
    unfold takeFitting
    split
    · exact List.nil_prefix
    · exact (List.prefix_cons_inj entry).mpr (ih _)

/-- **The packed suffix** is a run up to the frontier, of the overlay's entries and, below them,
the journal's. -/
theorem boundedSuffix_run {r : Replica J} {overlay log log' : List LogEntry} {frontier : Nat}
    (hreads : Reads r.journal log) (hoverlay : Offers overlay log')
    (hshaped : Shaped overlay frontier)
    (hbelow : ∀ slot < firstSlot overlay frontier, logAt log' slot = logAt log slot) :
    Offers (r.boundedSuffix frontier overlay) log' ∧
      Shaped (r.boundedSuffix frontier overlay) frontier := by
  unfold Replica.boundedSuffix
  simp only
  obtain ⟨hpos, -, hrun, hend⟩ := firstSlot_of_shaped hshaped
  have hpicked := takeFitting_spec r.knobs.viewChangeBudget 0 overlay.reverse
  generalize takeFitting r.knobs.viewChangeBudget 0 overlay.reverse = fitting at hpicked
  obtain ⟨picked, bytes⟩ := fitting
  obtain ⟨rest, hrest⟩ := hpicked
  have hsplit : overlay = rest.reverse ++ picked.reverse := by
    rw [← List.reverse_append, hrest, List.reverse_reverse]
  have hpickedOffers : Offers picked.reverse log' := fun entry hmem =>
    hoverlay entry (hsplit ▸ List.mem_append_right _ hmem)
  have hpickedShaped : Shaped picked.reverse frontier := by
    generalize firstSlot overlay frontier = base at hpos hrun hend
    rw [hsplit] at hrun hend
    rw [List.length_append] at hend
    exact Or.inr ⟨base + rest.reverse.length, by omega,
      (contiguousFrom_append.mp hrun).2, by omega⟩
  cases overlay with
  | nil =>
    simp only [List.head?_nil]
    obtain ⟨-, hnil⟩ := List.append_eq_nil_iff.mp hsplit.symm
    rw [hnil, List.append_nil]
    obtain ⟨hoffers, hshape⟩ := journalTail_run hreads r.knobs.viewChangeBudget frontier bytes
    refine ⟨fun entry hmem => ?_, hshape⟩
    have hentry := hoffers entry hmem
    rw [hbelow _ ?_]
    · exact hentry
    · obtain ⟨-, -, hrun', hend'⟩ := firstSlot_of_shaped hshape
      have := hrun'.mem_slot hmem
      show entry.slot < frontier + 1
      omega
  | cons first others =>
    simp only [List.head?_cons]
    split
    · -- Everything fits: the journal fills up from below.
      rename_i cursor hstart
      split at hstart
      · rename_i hall
        rw [Slot.prev_eq_some] at hstart
        have hwhole : picked.reverse = first :: others := by
          have hlen := congrArg List.length hsplit
          rw [List.length_append, List.length_reverse, List.length_reverse] at hlen
          have hnil : rest.reverse = [] := List.eq_nil_of_length_eq_zero (by
            rw [List.length_reverse]; omega)
          rw [hnil, List.nil_append] at hsplit
          exact hsplit.symm
        obtain ⟨hoffers, hshape⟩ := journalTail_run hreads r.knobs.viewChangeBudget cursor bytes
        obtain ⟨hpos', -, hrun', hend'⟩ := firstSlot_of_shaped hshape
        refine ⟨fun entry hmem => ?_, Or.inr ⟨_, hpos', contiguousFrom_append.mpr
          ⟨hrun', ?_⟩, ?_⟩⟩
        · rcases List.mem_append.mp hmem with hmem | hmem
          · have := hrun'.mem_slot hmem
            rw [hbelow _ (by show entry.slot < first.slot; omega)]
            exact hoffers entry hmem
          · exact hpickedOffers entry hmem
        · rw [hend', hwhole, ← hstart]
          exact hrun
        · rw [List.length_append, hwhole]
          have : firstSlot (first :: others) frontier = first.slot := rfl
          omega
      · cases hstart
    · exact ⟨hpickedOffers, hpickedShaped⟩

/-- A packed chunk is a run of the journal's own entries from the requested slot. -/
theorem packChunk_held (journal : J) (budget left slot bytes : Nat) :
    ContiguousFrom slot (packChunk journal budget left slot bytes) ∧
      ∀ entry ∈ packChunk journal budget left slot bytes,
        Journal.get journal entry.slot = some entry := by
  induction left generalizing slot bytes with
  | zero => exact ⟨trivial, fun _ hmem => (nomatch hmem)⟩
  | succ left ih =>
    unfold packChunk
    split
    · exact ⟨trivial, fun _ hmem => (nomatch hmem)⟩
    · rename_i entry hget
      have hslot := LawfulJournal.get_slot hget
      split
      · exact ⟨trivial, fun _ hmem => (nomatch hmem)⟩
      · obtain ⟨hrun, hheld⟩ := ih (slot + 1) (bytes + entry.packedLen)
        refine ⟨⟨hslot, hrun⟩, fun other hmem => ?_⟩
        rcases List.mem_cons.mp hmem with rfl | hmem
        · rw [hslot]
          exact hget
        · exact hheld other hmem

/-- A served chunk is a run of the journal from the requested slot. -/
theorem packChunk_run {journal : J} {log : List LogEntry} (h : Reads journal log)
    (budget left slot bytes : Nat) :
    Offers (packChunk journal budget left slot bytes) log ∧
      ContiguousFrom slot (packChunk journal budget left slot bytes) := by
  obtain ⟨hrun, hheld⟩ := packChunk_held journal budget left slot bytes
  exact ⟨fun entry hmem => h entry.slot entry (hheld entry hmem), hrun⟩

/-! ### Mutations -/

/-- **A journal and its log change together.** -/
theorem Mutates.reads {journal journal' : J} {log log' : List LogEntry}
    {mutation : JournalMutation} (h : Mutates log mutation log') (hreads : Reads journal log)
    (hfrontier : Journal.accepted journal = some log.length)
    (hjournal : Replica.mutateJournal journal mutation = .ok journal') :
    Reads journal' log' ∧ Journal.accepted journal' = some log'.length ∧
      (Journal.retained journal').1 = (Journal.retained journal).1 := by
  cases mutation with
  | none =>
    obtain rfl : log' = log := h
    cases hjournal
    exact ⟨hreads, hfrontier, rfl⟩
  | accept entries =>
    obtain rfl : log' = log ++ entries := h
    cases entries with
    | nil =>
      rw [show Replica.mutateJournal journal (.accept []) = Journal.accept journal [] from rfl,
        LawfulJournal.accept_nil] at hjournal
      cases hjournal
      rw [List.append_nil]
      exact ⟨hreads, hfrontier, rfl⟩
    | cons entry rest =>
      obtain ⟨hrun, hlast, hfirst, hget⟩ := LawfulJournal.accept_ok hfrontier hjournal
      refine ⟨fun slot held hheld => ?_, by rw [hlast, List.length_append], hfirst⟩
      rw [hget] at hheld
      split at hheld
      · rename_i hle
        rw [logAt_append_left hle]
        exact hreads slot held hheld
      · rw [logAt_append hrun (by omega)]
        exact hheld
  | installSuffix start suffix =>
    obtain ⟨hstart, hle, rfl⟩ := h
    obtain ⟨-, hne, hrun, hlast, hfirst, hget⟩ := LawfulJournal.installSuffix_ok hfrontier hjournal
    rw [Nat.min_eq_left hle] at hrun hlast hget
    have hpos := List.length_pos_iff.mpr hne
    refine ⟨fun slot held hheld => ?_, ?_, hfirst⟩
    · rw [hget] at hheld
      rw [logAt_splice log hstart hle hrun]
      split at hheld
      · rename_i hlt
        rw [if_pos hlt]
        exact hreads slot held hheld
      · rename_i hlt
        rw [if_neg hlt]
        exact hheld
    · rw [hlast, List.length_append, List.length_take]
      congr 1
      omega

/-! ### Accepting a suffix -/

/-- What the comparison passes over: held as offered, or let go of and vouched for. -/
def PassedOver (journal : J) (localAccepted discharged : Nat) (entry : LogEntry) : Prop :=
  entry.slot ≤ localAccepted ∧
    (Journal.get journal entry.slot = some entry ∨
      (Journal.get journal entry.slot = none ∧ entry.slot ≤ discharged))

omit [LawfulJournal J] in
theorem scanSuffix_agreed {journal : J} {localAccepted committed discharged : Nat}
    {entries : List LogEntry}
    (h : scanSuffix journal localAccepted committed discharged entries = .agreed) :
    ∀ entry ∈ entries, PassedOver journal localAccepted discharged entry := by
  induction entries with
  | nil => exact fun _ hmem => (nomatch hmem)
  | cons entry rest ih =>
    rw [scanSuffix] at h
    split at h
    · cases h
    · rename_i hle
      have hrest : scanSuffix journal localAccepted committed discharged rest = .agreed →
          PassedOver journal localAccepted discharged entry →
          ∀ other ∈ entry :: rest, PassedOver journal localAccepted discharged other := by
        intro hagreed hentry other hmem
        rcases List.mem_cons.mp hmem with rfl | hmem
        · exact hentry
        · exact ih hagreed other hmem
      split at h
      · rename_i held hheld
        split at h
        · rename_i heq
          rw [heq] at hheld
          exact hrest h ⟨by omega, Or.inl hheld⟩
        · split at h <;> cases h
      · rename_i hnone
        split at h
        · rename_i hvouched
          exact hrest h ⟨by omega, Or.inr ⟨hnone, hvouched⟩⟩
        · cases h

omit [LawfulJournal J] in
theorem scanSuffix_of_passedOver {journal : J} {localAccepted discharged : Nat} (committed : Nat)
    {entries : List LogEntry}
    (h : ∀ entry ∈ entries, PassedOver journal localAccepted discharged entry) :
    scanSuffix journal localAccepted committed discharged entries = .agreed := by
  induction entries with
  | nil => rfl
  | cons entry rest ih =>
    have hrest := ih fun other hmem => h other (List.mem_cons_of_mem _ hmem)
    obtain ⟨hle, hheld⟩ := h entry List.mem_cons_self
    rw [scanSuffix, if_neg (by omega)]
    rcases hheld with hheld | ⟨hnone, hdischarged⟩
    · simp only [hheld, if_pos]
      exact hrest
    · simp only [hnone, if_pos hdischarged]
      exact hrest

omit [LawfulJournal J] in
/-- The deciding slot is offered, and everything offered before it is passed over. -/
theorem scanSuffix_differsAt {journal : J} {localAccepted committed discharged base slot : Nat}
    {entries : List LogEntry} (hrun : ContiguousFrom base entries)
    (hbase : base ≤ localAccepted + 1)
    (h : scanSuffix journal localAccepted committed discharged entries = .differsAt slot) :
    base ≤ slot ∧ slot < base + entries.length ∧ slot ≤ localAccepted + 1 ∧
      ∀ entry ∈ entries, entry.slot < slot →
        PassedOver journal localAccepted discharged entry := by
  induction entries generalizing base with
  | nil => cases h
  | cons entry rest ih =>
    obtain ⟨hslot, hrest⟩ := hrun
    have hhere : ∀ other ∈ entry :: rest, other.slot < base →
        PassedOver journal localAccepted discharged other := by
      intro other hmem hlt
      have := (show ContiguousFrom base (entry :: rest) from ⟨hslot, hrest⟩).mem_slot hmem
      omega
    rw [scanSuffix] at h
    split at h
    · cases h
      rw [hslot]
      exact ⟨Nat.le_refl _, by simp, hbase, hhere⟩
    · rename_i hle
      have hlater : scanSuffix journal localAccepted committed discharged rest =
          .differsAt slot → PassedOver journal localAccepted discharged entry →
          base ≤ slot ∧ slot < base + (entry :: rest).length ∧ slot ≤ localAccepted + 1 ∧
            ∀ other ∈ entry :: rest, other.slot < slot →
              PassedOver journal localAccepted discharged other := by
        intro hdiffers hentry
        obtain ⟨hlow, hhigh, hnear, hall⟩ := ih hrest (by omega) hdiffers
        refine ⟨by omega, by rw [List.length_cons]; omega, hnear, fun other hmem hlt => ?_⟩
        rcases List.mem_cons.mp hmem with rfl | hmem
        · exact hentry
        · exact hall other hmem hlt
      split at h
      · rename_i held hheld
        split at h
        · rename_i heq
          rw [heq] at hheld
          exact hlater h ⟨by omega, Or.inl hheld⟩
        · split at h
          · cases h
          · cases h
            rw [hslot]
            exact ⟨Nat.le_refl _, by simp, hbase, hhere⟩
      · rename_i hnone
        split at h
        · rename_i hvouched
          exact hlater h ⟨by omega, Or.inr ⟨hnone, hvouched⟩⟩
        · cases h

theorem dropWhile_slot_ne {base start : Nat} {entries : List LogEntry}
    (hrun : ContiguousFrom base entries) (hle : base ≤ start) :
    entries.dropWhile (fun entry => entry.slot != start) = entries.drop (start - base) := by
  induction entries generalizing base with
  | nil => simp
  | cons entry rest ih =>
    obtain ⟨hslot, hrest⟩ := hrun
    rw [List.dropWhile_cons, hslot]
    by_cases heq : base = start
    · subst heq
      simp
    · rw [if_pos (by simpa using heq), ih hrest (by omega),
        show start - base = start - (base + 1) + 1 by omega, List.drop_succ_cons]

theorem ContiguousFrom.drop {base : Nat} {entries : List LogEntry}
    (hrun : ContiguousFrom base entries) (count : Nat) (hle : count ≤ entries.length) :
    ContiguousFrom (base + count) (entries.drop count) := by
  rw [← List.take_append_drop count entries] at hrun
  have := (contiguousFrom_append.mp hrun).2
  rwa [List.length_take, Nat.min_eq_left hle] at this

/-- The entry a run offers at one of its slots. -/
theorem ContiguousFrom.entryAt_mem {base : Nat} {entries : List LogEntry}
    (hrun : ContiguousFrom base entries) (slot : Nat) (hlow : base ≤ slot)
    (hhigh : slot < base + entries.length) :
    ∃ entry ∈ entries, entry.slot = slot ∧ entryAt entries slot = some entry := by
  obtain ⟨entry, hentry⟩ := Option.isSome_iff_exists.mp
    ((hrun.entryAt_isSome slot).mpr ⟨hlow, hhigh⟩)
  exact ⟨entry, List.mem_of_find?_eq_some hentry, entryAt_slot hentry, hentry⟩

omit [LawfulJournal J] in
/-- **An accepted suffix.** The log behind the mutation ends where the offer does. Below the
offer's first slot it is the old log, from there on the offered one; what was vouched for
without being compared may still be the old log's. -/
theorem checkSuffix_spliced {r : Replica J} {log offered suffix : List LogEntry}
    {accepted committed discharged : Nat} {mutation : JournalMutation}
    (hreads : Reads r.journal log) (haccepted : r.progress.accepted = log.length)
    (hoffers : Offers suffix offered) (hshaped : Shaped suffix accepted)
    (h : r.checkSuffix suffix accepted committed discharged = .install mutation) :
    ∃ log', Mutates log mutation log' ∧ log'.length = accepted ∧
      firstSlot suffix accepted ≤ log.length + 1 ∧
      (∀ slot < firstSlot suffix accepted, logAt log' slot = logAt log slot) ∧
      ∀ slot, firstSlot suffix accepted ≤ slot → slot ≤ accepted →
        logAt log' slot = logAt offered slot ∨
          (slot ≤ discharged ∧ logAt log' slot = logAt log slot) := by
  obtain ⟨hpos, hbound, hrun, hend⟩ := firstSlot_of_shaped hshaped
  unfold Replica.checkSuffix at h
  cases suffix with
  | nil =>
    simp only at h
    split at h
    · rename_i heq
      cases h
      obtain ⟨heq, -⟩ := heq
      have hfirst : firstSlot [] accepted = accepted + 1 := rfl
      exact ⟨log, rfl, by omega, by omega, fun _ _ => rfl, fun slot hlow hhigh => by omega⟩
    · cases h
  | cons first rest =>
    have hfirst : firstSlot (first :: rest) accepted = first.slot := rfl
    simp only at h
    rw [hfirst] at hpos hbound hrun hend ⊢
    split at h
    · cases h
    · rename_i hconnects
      have hnear : first.slot ≤ log.length + 1 := by
        rw [not_and, not_lt] at hconnects
        by_cases hnext : Slot.next r.progress.accepted = some first.slot
        · rw [Slot.next_eq_some] at hnext
          omega
        · have := hconnects hnext
          omega
      -- The slots that agree read the same in both logs, unless vouched for.
      have hpassed : ∀ entry ∈ first :: rest,
          PassedOver r.journal r.progress.accepted discharged entry →
          logAt log entry.slot = logAt offered entry.slot ∨ entry.slot ≤ discharged := by
        intro entry hmem hpass
        rcases hpass.2 with hheld | ⟨-, hvouched⟩
        · exact Or.inl ((hreads _ _ hheld).trans (hoffers entry hmem).symm)
        · exact Or.inr hvouched
      -- A cut at an offered slot with everything offered before it passed over.
      have hcut : ∀ start, first.slot ≤ start → start ≤ accepted → start ≤ log.length + 1 →
          (∀ entry ∈ first :: rest, entry.slot < start →
            PassedOver r.journal r.progress.accepted discharged entry) →
          ∃ log', Mutates log (.installSuffix start
              ((first :: rest).dropWhile fun entry => entry.slot != start)) log' ∧
            log'.length = accepted ∧ first.slot ≤ log.length + 1 ∧
            (∀ slot < first.slot, logAt log' slot = logAt log slot) ∧
            ∀ slot, first.slot ≤ slot → slot ≤ accepted →
              logAt log' slot = logAt offered slot ∨
                (slot ≤ discharged ∧ logAt log' slot = logAt log slot) := by
        intro start hlow hhigh hreach hbefore
        rw [dropWhile_slot_ne hrun hlow]
        have hdrop : ContiguousFrom start ((first :: rest).drop (start - first.slot)) := by
          have := hrun.drop (start - first.slot) (by omega)
          rwa [show first.slot + (start - first.slot) = start by omega] at this
        have hread := logAt_splice log (by omega) hreach hdrop
        refine ⟨_, ⟨by omega, hreach, rfl⟩, ?_, hnear, fun slot hslot => ?_,
          fun slot hslot hle => ?_⟩
        · rw [List.length_append, List.length_take, List.length_drop]
          omega
        · rw [hread, if_pos (by omega)]
        · by_cases hlt : slot < start
          · obtain ⟨entry, hmem, rfl, -⟩ := hrun.entryAt_mem slot hslot (by omega)
            rw [hread, if_pos hlt]
            rcases hpassed entry hmem (hbefore entry hmem hlt) with heq | hvouched
            · exact Or.inl heq
            · exact Or.inr ⟨hvouched, rfl⟩
          · rw [hread, if_neg hlt]
            obtain ⟨entry, hmem, hentry, hat⟩ := hdrop.entryAt_mem slot (by omega) (by
              rw [List.length_drop]
              omega)
            rw [hat, ← hentry]
            exact Or.inl (hoffers entry (List.mem_of_mem_drop hmem)).symm
      split at h
      · cases h
      · cases h
      · rename_i slot hscan
        obtain ⟨hlow, hhigh, hreach, hbefore⟩ :=
          scanSuffix_differsAt hrun (by omega) hscan
        rw [if_neg (by omega)] at h
        cases h
        exact hcut slot hlow (by omega) (by omega) hbefore
      · rename_i hscan
        have hall := scanSuffix_agreed hscan
        have hheld : accepted ≤ log.length := by
          obtain ⟨entry, hmem, hslot, -⟩ := hrun.entryAt_mem accepted (by
            rw [List.length_cons] at hend; omega) (by omega)
          have := (hall entry hmem).1
          omega
        split at h
        · split at h
          · -- A shorter history over the longer one.
            cases h
            have hwhole := hcut first.slot (Nat.le_refl _) (by
              rw [List.length_cons] at hend; omega) hnear fun entry hmem _ => hall entry hmem
            rwa [dropWhile_slot_ne hrun (Nat.le_refl _), Nat.sub_self, List.drop_zero] at hwhole
          · cases h
            refine ⟨log, rfl, by omega, hnear, fun _ _ => rfl, fun slot hlow hhigh => ?_⟩
            obtain ⟨entry, hmem, rfl, -⟩ := hrun.entryAt_mem slot hlow (by omega)
            rcases hpassed entry hmem (hall entry hmem) with heq | hvouched
            · exact Or.inl heq
            · exact Or.inr ⟨hvouched, rfl⟩
        · -- The last slot of the slot space is installed again.
          rename_i hstart
          cases h
          have hlast : (Slot.next accepted).getD accepted = accepted := by
            unfold Slot.next at hstart ⊢
            split
            · rename_i hnext
              rw [if_pos hnext, Option.getD_some] at hstart
              omega
            · rfl
          rw [hlast]
          exact hcut accepted (by rw [List.length_cons] at hend; omega) (Nat.le_refl _) (by omega)
            fun entry hmem _ => hall entry hmem

end Journal

end UvrrCore
