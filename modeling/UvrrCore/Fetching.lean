import UvrrCore.Deferred.Simulation
import UvrrCore.Draft.Dispatch
import UvrrCore.Piggyback

/-!
# The answer to an open fetch

A replica that misses a range keeps a fetch open and asks again on every tick, until chunks have
moved the fetch to the end of what its responder holds. While it waits the same range may come in
by other messages.

* `connectsAt_iff`: which answers the suffix check installs.
* `chunkCandidate_isOk`: the record behind an installed answer passes its check.
* `fetch_advances_iff`: which answers close the fetch or move it on.
-/

namespace UvrrCore

/-! ### The fold of a replica that serves no view -/

/-- **A paced fold without a running ballot keeps to the era window of the current one.** -/
theorem foldSlotsThrough_fenced {read : Nat → Option LogEntry} {runFuel through rounds : Nat}
    {current : Ballot} {folding folded : Folding}
    (h : foldSlotsThrough read runFuel current through true rounds folding = .ok folded)
    (hsound : folding.table.Sound folding.covered) (hidle : folding.running = none)
    (hwindow : folding.table.current.era = current.era ∨
      Era.next current.era = some folding.table.current.era) :
    folded.running = none ∧ (folded.table.current.era = current.era ∨
      Era.next current.era = some folded.table.current.era) := by
  refine (foldSlotsThrough_induct (P := fun f => f.table.Sound f.covered ∧ f.running = none ∧
    (f.table.current.era = current.era ∨ Era.next current.era = some f.table.current.era))
    ?_ ?_ ?_ ⟨hsound, hidle, hwindow⟩ h).2
  · intro f entry id payload hf _ _ _
    exact ⟨hf.1.later (Nat.le_succ _), hf.2⟩
  · intro f entry op extended ops last hf hlt _ _ hextend hspent
    obtain ⟨hsound, hidle, hwindow⟩ := hf
    obtain ⟨hgrown, hera⟩ := extendRun_sound hsound hextend
    have hnone : runNominations f.running ops extended.current.era = none := by
      rw [← Option.not_isSome_iff_eq_none, runNominations_isSome, hidle]
      simp
    refine ⟨hgrown, hnone, .inr ?_⟩
    show Era.next current.era = some extended.current.era
    rw [Bool.true_and, hnone, hidle] at hspent
    unfold windowSpent at hspent
    simp only [Option.map_none, Option.getD_none, BEq.rfl, Bool.and_true] at hspent
    split at hspent
    · rename_i cap hcap
      have hcap' := (Era.next_eq_some.mp hcap).2
      rw [decide_eq_false_iff_not] at hspent
      have hlow : current.era ≤ f.table.current.era := by
        rcases hwindow with heq | hnext
        · omega
        · have := (Era.next_eq_some.mp hnext).2
          omega
      rw [hcap, show cap = extended.current.era by omega]
    · cases hspent
  · intro f hf _ _
    exact hf

namespace Replica

variable {J : Type} [Journal J] [LawfulJournal J] {r source : Replica J}

/-! ### The suffix check -/

/-- **The answer connects to the journal**: it begins right behind the accepted frontier, or where
the journal is still retained. -/
def ConnectsAt (r : Replica J) (next : Nat) : Prop :=
  Slot.next r.progress.accepted = some next ∨
    (next ≤ r.progress.accepted ∧ (Journal.retained r.journal).1 ≤ next)

/-- The entries are those the journal holds at the committed slots. -/
def KeepsCommitted (r : Replica J) (entries : List LogEntry) : Prop :=
  ∀ entry ∈ entries, entry.slot ≤ r.progress.committed →
    ∀ held, Journal.get r.journal entry.slot = some held → held = entry

omit [LawfulJournal J] in
/-- Entries that are held, and agree where they are committed, are verified. -/
theorem scanSuffix_verified {suffix : List LogEntry} (hagrees : r.KeepsCommitted suffix)
    (hheld : ∀ entry ∈ suffix, entry.slot ≤ r.progress.accepted →
      ∃ held, Journal.get r.journal entry.slot = some held) :
    scanSuffix r.journal r.progress.accepted r.progress.committed Slot.none suffix = .agreed ∨
      ∃ slot, scanSuffix r.journal r.progress.accepted r.progress.committed Slot.none suffix =
        .differsAt slot := by
  induction suffix with
  | nil => exact .inl rfl
  | cons entry rest ih =>
    unfold scanSuffix
    split
    · exact .inr ⟨_, rfl⟩
    · rename_i hbelow
      obtain ⟨held, hget⟩ := hheld entry List.mem_cons_self (by omega)
      rw [hget]
      dsimp only
      split
      · exact ih (fun other hmem => hagrees other (List.mem_cons_of_mem _ hmem))
          (fun other hmem => hheld other (List.mem_cons_of_mem _ hmem))
      · rename_i hdiffers
        rw [if_neg fun hle => hdiffers (hagrees entry List.mem_cons_self hle held hget)]
        exact .inr ⟨_, rfl⟩

/-- **Which answers are installed**: of those that agree with what is committed, the ones that
connect. -/
theorem connectsAt_iff (hframe : (Journal.accepted r.journal).getD Slot.none = r.progress.accepted)
    (hr : r.Reached) {next accepted committed : Nat} {suffix : List LogEntry}
    (hrun : ContiguousFrom next suffix) (hsome : suffix ≠ []) (hreal : next ≠ Slot.none)
    (hagrees : r.KeepsCommitted suffix) :
    (∃ mutation, r.checkSuffix suffix accepted committed Slot.none = .install mutation) ↔
      r.ConnectsAt next := by
  obtain ⟨frontier, hfrontier⟩ := Option.isSome_iff_exists.mp hr.founded.frontier
  rw [hfrontier, Option.getD_some] at hframe
  cases suffix with
  | nil => exact absurd rfl hsome
  | cons first rest =>
    obtain ⟨rfl, -⟩ := id hrun
    unfold checkSuffix
    dsimp only
    constructor
    · rintro ⟨mutation, hinstall⟩
      split at hinstall
      · cases hinstall
      · rename_i hnear
        by_cases hnext : Slot.next r.progress.accepted = some first.slot
        · exact .inl hnext
        · have hbelow : first.slot ≤ r.progress.accepted := by
            by_contra hbeyond
            exact hnear ⟨hnext, Nat.lt_of_not_le hbeyond⟩
          refine .inr ⟨hbelow, ?_⟩
          by_contra hreclaimed
          -- the first slot is let go of, and nothing vouches for it
          have hscan : scanSuffix r.journal r.progress.accepted r.progress.committed Slot.none
              (first :: rest) = .unverifiable first.slot := by
            unfold scanSuffix
            rw [if_neg (Nat.not_lt.mpr hbelow),
              LawfulJournal.get_lt_first (Nat.lt_of_not_le hreclaimed)]
            exact if_neg fun hle => hreal (Nat.le_zero.mp hle)
          rw [hscan] at hinstall
          cases hinstall
    · intro hconnects
      have hheld : ∀ entry ∈ first :: rest, entry.slot ≤ r.progress.accepted →
          ∃ held, Journal.get r.journal entry.slot = some held := by
        intro entry hmem hle
        have hlow := (hrun.mem_slot hmem).1
        rcases hconnects with hnext | ⟨-, hretained⟩
        · have := (Slot.next_eq_some.mp hnext).2
          omega
        · exact Option.isSome_iff_exists.mp
            (LawfulJournal.get_isSome hfrontier (hretained.trans hlow) (by omega))
      rw [if_neg fun hfar => ?_]
      · have hinstall : ∀ start : Nat, ∃ mutation,
            (if accepted < start then
              if accepted < r.progress.accepted then
                SuffixCheck.install (.installSuffix first.slot (first :: rest))
              else .install .none
            else .install (.installSuffix start
              ((first :: rest).dropWhile fun entry => entry.slot != start))) =
              .install mutation := by
          intro start
          split
          · split
            · exact ⟨_, rfl⟩
            · exact ⟨_, rfl⟩
          · exact ⟨_, rfl⟩
        rcases scanSuffix_verified hagrees hheld with hscan | ⟨slot, hscan⟩
        · rw [hscan]
          exact hinstall _
        · rw [hscan]
          exact hinstall _
      · rcases hconnects with hnext | ⟨hle, -⟩
        · exact hfar.1 hnext
        · exact absurd hfar.2 (Nat.not_lt.mpr hle)

/-! ### The install -/

/-- A run that connects is readable up to its last slot, laid over the journal. -/
theorem merged_readable (hr : r.Reached)
    (hframe : (Journal.accepted r.journal).getD Slot.none = r.progress.accepted) {next : Nat}
    {entries : List LogEntry} (hrun : ContiguousFrom next entries) (hconnects : r.ConnectsAt next)
    {slot : Nat} (hlow : r.progress.checkpoint < slot) (hhigh : slot < next + entries.length) :
    ∃ entry, merged r.journal entries slot = some entry := by
  unfold merged
  cases hentry : entryAt entries slot with
  | some entry => exact ⟨entry, rfl⟩
  | none =>
    have houtside := mt (hrun.entryAt_isSome slot).mpr (by simp [hentry])
    have hnear : next ≤ r.progress.accepted + 1 := by
      rcases hconnects with hnext | ⟨hle, -⟩
      · have := (Slot.next_eq_some.mp hnext).2
        omega
      · omega
    exact hr.readable hframe hlow (by omega)

omit [LawfulJournal J] in
/-- The part of the answer that a fold covers reads like all of it up to there. -/
theorem merged_covered (entries : List LogEntry) {covered slot : Nat} (hle : slot ≤ covered) :
    merged r.journal (entries.filter fun entry => decide (entry.slot ≤ covered)) slot =
      merged r.journal entries slot := by
  unfold merged
  rw [entryAt_covered entries hle]

/-- **The era window stops the fold**, with an era past the current one established: a boot
acquisition walks. -/
def Walks (r : Replica J) (folded : FoldedCommit) : Prop :=
  folded.stopped = true ∧ r.progress.current.era < folded.config.current.era

instance (r : Replica J) (folded : FoldedCommit) : Decidable (r.Walks folded) :=
  inferInstanceAs (Decidable (_ ∧ _))

theorem nextInNextEra_era {view target : Ballot} (h : view.nextInNextEra = some target) :
    target.era = view.era + 1 := by
  unfold Ballot.nextInNextEra at h
  split at h
  · rename_i era next hera _
    rw [← Option.some.inj h]
    exact (Era.next_eq_some.mp hera).2
  · cases h

omit [Journal J] [LawfulJournal J] in
/-- Where an acquisition walks to. -/
theorem walkTarget_eq_ok {acquisition : Bool} {folded : FoldedCommit} {walked : Option Ballot} :
    r.walkTarget acquisition folded = .ok walked ↔
      if acquisition = true ∧ r.Walks folded then
        walked = r.progress.current.nextInNextEra ∧ walked.isSome
      else walked = none := by
  unfold walkTarget Walks
  by_cases hwalks : acquisition = true ∧ folded.stopped = true ∧
      r.progress.current.era < folded.config.current.era
  · rw [if_pos hwalks, if_pos (by simpa [and_assoc] using hwalks)]
    cases r.progress.current.nextInNextEra with
    | none =>
      constructor
      · exact nofun
      · rintro ⟨rfl, hsome⟩
        cases hsome
    | some target =>
      constructor
      · intro h
        cases h
        exact ⟨rfl, rfl⟩
      · rintro ⟨rfl, -⟩
        rfl
  · rw [if_neg hwalks, if_neg (by simpa [and_assoc] using hwalks)]
    constructor
    · intro h
      cases h
      rfl
    · rintro rfl
      rfl

omit [LawfulJournal J] in
/-- The record behind an answer passes its check: where the fold is that of a serving replica, of a
boot acquisition, or of nothing. -/
theorem chunkCandidate_isOk (hr : r.Reached) (hrevision : r.progress.revision + 1 < u64Bound)
    {view : Ballot} {entries : List LogEntry} {committed accepted through applied : Nat}
    {folded : FoldedCommit} {walked : Option Ballot}
    (hfold : r.foldCommitted entries r.progress.committed
      (r.chunkCommit view committed through) true = .ok folded)
    (hwalked : r.walkTarget (r.bootAcquisition view) folded = .ok walked)
    (haccepted : folded.covered ≤ accepted) (happlied : r.progress.applied ≤ applied)
    (hwithin : applied ≤ folded.covered) :
    ∃ candidate, r.chunkCandidate walked accepted folded.covered applied folded.config
      (if r.bootAcquisition view then none else folded.bump) = .ok candidate := by
  have hsound : (r.folding r.progress.committed).table.Sound
      (r.folding r.progress.committed).covered := hr.tabled.published
  have hchain : r.progress.checkpoint ≤ applied ∧ applied ≤ folded.covered ∧
      folded.covered ≤ accepted :=
    ⟨r.progress.checkpoint_le_applied.trans happlied, hwithin, haccepted⟩
  have hslot : folded.config.eraOfSlot accepted = some folded.config.current.era := by
    obtain ⟨end_, hend, rfl⟩ := foldCommitted_ok hfold
    exact if_pos ((hsound.fold hend).established.trans haccepted)
  by_cases hserving : r.progress.status = .normal
  · have hnot : r.bootAcquisition view = false := by
      unfold bootAcquisition bootFenced
      rw [hserving]
      simp [Status.isBoot]
    rw [hnot, walkTarget_eq_ok, if_neg (by simp)] at hwalked
    rw [hwalked, hnot]
    unfold chunkCandidate
    dsimp only
    rw [hserving]
    exact candidateWith_folded hr hserving hrevision hfold haccepted happlied hwithin
  · -- nothing bumps the ballot, and the table is in its window
    obtain ⟨end_, hend, rfl⟩ := foldCommitted_ok hfold
    have hidle : (r.folding r.progress.committed).running = none := if_neg hserving
    obtain ⟨hnone, hwindow⟩ := foldSlotsThrough_fenced hend hsound hidle hr.window
    dsimp only at hchain hslot hwalked ⊢
    have hbump : (if r.bootAcquisition view then none else
        end_.running.filter fun view => view != r.progress.current) = none := by
      rw [hnone]
      exact ite_self _
    rw [hbump]
    cases walked with
    | none =>
      refine nextRecord_of_check hrevision (ProgressData.check_eq_ok.mpr ⟨hchain, ?_,
        ProgressData.eraDiscipline_of_eraOfSlot hslot hwindow⟩)
      exact r.progress.statusRelation
    | some target =>
      rw [walkTarget_eq_ok] at hwalked
      split at hwalked
      · rename_i hwalks
        obtain ⟨hacquires, -, hahead⟩ := hwalks
        dsimp only at hahead
        have hera : target.era = end_.table.current.era := by
          have hnext := hwindow.resolve_left (by omega)
          have hnext' := (Era.next_eq_some.mp hnext).2
          rw [nextInNextEra_era hwalked.1.symm, hnext']
        refine nextRecord_of_check hrevision (ProgressData.check_eq_ok.mpr ⟨hchain, ?_,
          ProgressData.eraDiscipline_of_eraOfSlot hslot (.inl hera.symm)⟩)
        have hboot : r.progress.status.isBoot = true := by
          unfold bootAcquisition at hacquires
          rw [Bool.and_eq_true] at hacquires
          exact bootFenced_isBoot hacquires.2
        show ProgressData.StatusRelation _
        unfold ProgressData.StatusRelation
        dsimp only
        cases hstatus : r.progress.status with
        | normal => exact absurd hstatus hserving
        | viewChange => exact le_refl _
        | restarting => trivial
        | joining => trivial
        | replaying => trivial
      · cases hwalked

/-! ### The cursor -/

/-- **The plan closes the open fetch, or moves it on** past the slot it asked for. -/
def FetchAdvances (r : Replica J) (asked : Nat) (planned : Planned) : Prop :=
  ∃ plan, planned = .ok plan ∧
    ∀ fetch, plan.bookkeeping.transfer.applyTo r.transfer = some fetch → asked < fetch.next

omit [Journal J] [LawfulJournal J] in
theorem not_advances_of_unchanged {fetch : TransferVolatile} {planned : Planned}
    (hopen : r.transfer = some fetch)
    (h : ∀ plan, planned = .ok plan → plan.bookkeeping.transfer = .unchanged) :
    ¬ r.FetchAdvances fetch.next planned := by
  rintro ⟨plan, hplan, hadvances⟩
  rw [h plan hplan] at hadvances
  exact lt_irrefl _ (hadvances fetch hopen)

omit [Journal J] [LawfulJournal J] in
theorem not_advances_of_drop {fetch : TransferVolatile} {diagnostic : Diagnostic} {kind : InputKind}
    (hopen : r.transfer = some fetch) :
    ¬ r.FetchAdvances fetch.next (r.dropPlan diagnostic kind) := by
  refine not_advances_of_unchanged hopen fun plan hplan => ?_
  obtain ⟨candidate, -, rfl⟩ := dropPlan_ok hplan
  rfl

omit [Journal J] [LawfulJournal J] in
theorem not_advances_of_breach {fetch : TransferVolatile} {kind : InputKind}
    (hopen : r.transfer = some fetch) :
    ¬ r.FetchAdvances fetch.next (r.breachPlan kind) := by
  refine not_advances_of_unchanged hopen fun plan hplan => ?_
  obtain ⟨candidate, -, rfl⟩ := breachPlan_ok hplan
  rfl

omit [LawfulJournal J] in
/-- The fetch behind an answer asks for more than before, if the accepted frontier has come to what
was asked for. -/
theorem chunkCursor_advances {view : Ballot} {sender accepted asked : Nat} {onward : Bool}
    {transfer : Option TransferVolatile} (hconnects : r.ConnectsAt asked)
    (haccepted : r.progress.accepted ≤ accepted) :
    (∀ fetch, (chunkCursor view sender accepted onward).2.applyTo transfer = some fetch →
        asked < fetch.next) ↔
      (onward = true → asked ≤ accepted) := by
  unfold chunkCursor
  cases onward with
  | false =>
    constructor
    · exact fun _ => nofun
    · exact fun _ => nofun
  | true =>
    rw [if_pos rfl]
    cases hnext : Slot.next accepted with
    | none =>
      have hreached : asked ≤ accepted := by
        rcases hconnects with hright | ⟨hle, -⟩
        · have hslot := (Slot.next_eq_some.mp hright).2
          rcases Nat.lt_or_ge r.progress.accepted accepted with hlt | hge
          · omega
          · rw [Nat.le_antisymm haccepted hge, hnext] at hright
            cases hright
        · omega
      exact ⟨fun _ _ => hreached, fun _ => nofun⟩
    | some next =>
      have hslot := (Slot.next_eq_some.mp hnext).2
      constructor
      · intro h _
        have := h _ rfl
        have hasked : asked < next := this
        omega
      · intro h fetched hfetched
        cases hfetched
        have := h rfl
        show asked < next
        omega

/-- The accepted frontier behind an answer. -/
def acceptedAfter (r : Replica J) (view : Ballot) (covered through : Nat) : Nat :=
  if r.bootAcquisition view then max r.progress.accepted covered
  else max r.progress.accepted through

/-- **What a boot acquisition needs of its fold**: a view to walk to, if it walks, and the slot asked
for, if it is to ask on. -/
def Reaches (r : Replica J) (asked : Nat) (more : Bool) (folded : FoldedCommit) : Prop :=
  (r.Walks folded → r.progress.current.nextInNextEra.isSome) ∧
    (more = true ∨ r.Walks folded → asked ≤ max r.progress.accepted folded.covered)

/-- **An answer that connects**, with what it commits folded. -/
structure FoldedAnswer (r : Replica J) (view : Ballot) (asked through committed : Nat)
    (entries : List LogEntry) (folded : FoldedCommit) : Prop where
  run : ContiguousFrom asked entries
  ends : through + 1 = asked + entries.length
  nonempty : entries ≠ []
  connects : r.ConnectsAt asked
  ahead : r.progress.accepted < through
  fold : r.foldCommitted entries r.progress.committed
    (r.chunkCommit view committed (max r.progress.accepted through)) true = .ok folded

section Install

variable {sender asked through committed : Nat} {view : Ballot} {entries : List LogEntry}
  {more : Bool} {folded : FoldedCommit} {mutation : JournalMutation} {kind : InputKind}

omit [LawfulJournal J] in
theorem ConnectsAt.near (h : r.ConnectsAt asked) : asked ≤ r.progress.accepted + 1 := by
  rcases h with hnext | ⟨hle, -⟩
  · have := (Slot.next_eq_some.mp hnext).2
    omega
  · omega

omit [LawfulJournal J] in
/-- The fold goes on from the committed frontier, and not beyond the answer. -/
theorem FoldedAnswer.covered (h : r.FoldedAnswer view asked through committed entries folded) :
    r.progress.committed ≤ folded.covered ∧ folded.covered ≤ through := by
  obtain ⟨-, hlow, hhigh⟩ := foldChunk_bounds h.fold
  exact ⟨hlow, hhigh.trans (max_eq_right h.ahead.le).le⟩

omit [LawfulJournal J] in
theorem FoldedAnswer.after (h : r.FoldedAnswer view asked through committed entries folded) :
    r.progress.accepted ≤ r.acceptedAfter view folded.covered through ∧
      folded.covered ≤ r.acceptedAfter view folded.covered through := by
  have := h.covered
  unfold acceptedAfter
  split
  · omega
  · omega

theorem FoldedAnswer.readable (h : r.FoldedAnswer view asked through committed entries folded)
    (hr : r.Reached) (hframe : (Journal.accepted r.journal).getD Slot.none = r.progress.accepted)
    {slot : Nat} (hlow : r.progress.checkpoint < slot) (hhigh : slot ≤ folded.covered) :
    ∃ entry, merged r.journal entries slot = some entry := by
  have := h.covered
  have := h.ends
  exact merged_readable hr hframe h.run h.connects hlow (by omega)

/-- The operations that are newly committed are read. -/
theorem FoldedAnswer.applies (h : r.FoldedAnswer view asked through committed entries folded)
    (hr : r.Reached) (hframe : (Journal.accepted r.journal).getD Slot.none = r.progress.accepted) :
    ∃ applies, r.chunkApplies
      (entries.filter fun entry => decide (entry.slot ≤ folded.covered)) folded.covered =
        .ok applies := by
  have happlied := r.progress.applied_le_committed
  have hcheckpoint := r.progress.checkpoint_le_applied
  unfold chunkApplies
  split
  · have hreads : ∀ slot, r.progress.committed < slot →
        slot ≤ r.progress.committed + (folded.covered - r.progress.committed) →
        ∃ entry, merged r.journal
          (entries.filter fun entry => decide (entry.slot ≤ folded.covered)) slot = some entry := by
      intro slot hpast hle
      rw [merged_covered entries (by omega)]
      exact h.readable hr hframe (by omega) (by omega)
    obtain ⟨applies, happlies, -⟩ := applyRange_total hreads
    exact ⟨applies, happlies⟩
  · exact ⟨[], rfl⟩

/-- The walk over what is applied gets no further than the fold. -/
theorem FoldedAnswer.walks (h : r.FoldedAnswer view asked through committed entries folded)
    (hr : r.Reached) (hframe : (Journal.accepted r.journal).getD Slot.none = r.progress.accepted)
    {overlay : List LogEntry} (hsame : ∀ slot ≤ folded.covered,
      merged r.journal overlay slot = merged r.journal entries slot) :
    ∃ applied, r.appliedWalk overlay r.progress.applied folded.covered = .ok applied ∧
      r.progress.applied ≤ applied ∧ applied ≤ folded.covered := by
  have happlied := r.progress.applied_le_committed
  have hcheckpoint := r.progress.checkpoint_le_applied
  have hcovered := h.covered
  have hreads : ∀ slot, r.progress.applied < slot →
      slot ≤ r.progress.applied + (folded.covered - r.progress.applied) →
      ∃ entry, merged r.journal overlay slot = some entry := by
    intro slot hpast hle
    rw [hsame slot (by omega)]
    exact h.readable hr hframe (by omega) (by omega)
  obtain ⟨applied, hwalk⟩ := systemWalk_total hreads
  have hwalked := systemWalk_walked hwalk
  have hforward := hwalked.forward
  have hwithin := hwalked.within
  exact ⟨applied, hwalk, hforward, by omega⟩

/-- **The answer is installed**, with a revision left and a view to walk to. -/
theorem FoldedAnswer.isOk (h : r.FoldedAnswer view asked through committed entries folded)
    (hr : r.Reached) (hframe : (Journal.accepted r.journal).getD Slot.none = r.progress.accepted)
    (hrevision : r.progress.revision + 1 < u64Bound) {walked : Option Ballot}
    (hwalked : r.walkTarget (r.bootAcquisition view) folded = .ok walked) :
    ∃ plan, r.installChunk sender view entries through more folded mutation kind = .ok plan := by
  obtain ⟨applies, happlies⟩ := h.applies hr hframe
  generalize hoverlay : (if (r.bootAcquisition view && decide (folded.covered < through)) &&
    !(entries.filter fun entry => decide (entry.slot ≤ folded.covered)).isEmpty then
      entries.filter fun entry => decide (entry.slot ≤ folded.covered) else entries) = overlay
  have hsame : ∀ slot ≤ folded.covered,
      merged r.journal overlay slot = merged r.journal entries slot := by
    intro slot hle
    rw [← hoverlay]
    split
    · exact merged_covered entries hle
    · rfl
  obtain ⟨applied, hwalk, hforward, hwithin⟩ := h.walks hr hframe hsame
  obtain ⟨candidate, hcandidate⟩ := chunkCandidate_isOk hr hrevision h.fold hwalked h.after.2
    hforward hwithin
  have hcandidate' : r.chunkCandidate walked
      (if r.bootAcquisition view then max r.progress.accepted folded.covered
        else max r.progress.accepted through) folded.covered applied folded.config
      (if r.bootAcquisition view then none else folded.bump) = .ok candidate := hcandidate
  unfold installChunk
  dsimp only
  rw [happlies, hwalked, hoverlay, hwalk]
  dsimp only [bind, Except.bind]
  rw [hcandidate']
  exact ⟨_, rfl⟩

omit [LawfulJournal J] in
/-- The fetch behind an installed answer. -/
theorem installChunk_transfer {plan : PlannedTransition}
    (h : r.installChunk sender view entries through more folded mutation kind = .ok plan) :
    r.progress.revision + 1 < u64Bound ∧
      ∃ walked fetched, r.walkTarget (r.bootAcquisition view) folded = .ok walked ∧
        plan.bookkeeping.transfer =
          (chunkCursor fetched sender (r.acceptedAfter view folded.covered through)
            (more || walked.isSome || ((r.bootAcquisition view && decide (folded.covered < through))
              && decide (r.progress.accepted <
                r.acceptedAfter view folded.covered through)))).2 := by
  obtain ⟨applies, -, h⟩ := bind_eq_ok.mp h
  obtain ⟨walked, hwalked, h⟩ := bind_eq_ok.mp h
  obtain ⟨applied, -, h⟩ := bind_eq_ok.mp h
  obtain ⟨candidate, hcandidate, h⟩ := bind_eq_ok.mp h
  cases pure_eq_ok.mp h
  refine ⟨?_, walked, _, hwalked, rfl⟩
  unfold chunkCandidate at hcandidate
  split at hcandidate
  · exact nextRecord_room hcandidate
  · exact nextRecord_room hcandidate

/-- **The install of an answer moves the fetch on**, but for an acquisition whose fold does not
reach what was asked for. -/
theorem FoldedAnswer.advances_iff
    (h : r.FoldedAnswer view asked through committed entries folded) (hr : r.Reached)
    (hframe : (Journal.accepted r.journal).getD Slot.none = r.progress.accepted) :
    r.FetchAdvances asked
        (r.installChunk sender view entries through more folded mutation kind) ↔
      r.progress.revision + 1 < u64Bound ∧
        (r.bootAcquisition view = true → r.Reaches asked more folded) := by
  have hnear := h.connects.near
  have hlength := List.length_pos_iff.mpr h.nonempty
  have hends := h.ends
  have hmoved : ∀ {plan : PlannedTransition} {walked : Option Ballot} {fetched : Ballot},
      plan.bookkeeping.transfer =
        (chunkCursor fetched sender (r.acceptedAfter view folded.covered through)
          (more || walked.isSome || ((r.bootAcquisition view && decide (folded.covered < through))
            && decide (r.progress.accepted <
              r.acceptedAfter view folded.covered through)))).2 →
      ((∀ fetch, plan.bookkeeping.transfer.applyTo r.transfer = some fetch → asked < fetch.next) ↔
        (more = true ∨ walked.isSome = true →
          asked ≤ r.acceptedAfter view folded.covered through)) := by
    intro plan walked fetched htransfer
    rw [htransfer, chunkCursor_advances h.connects h.after.1]
    simp only [Bool.or_eq_true, Bool.and_eq_true, decide_eq_true_eq]
    constructor
    · intro hmoves honward
      exact hmoves (.inl honward)
    · rintro hmoves (honward | ⟨-, hgrown⟩)
      · exact hmoves honward
      · omega
  constructor
  · rintro ⟨plan, hplan, hadvances⟩
    obtain ⟨hrevision, walked, fetched, hwalked, htransfer⟩ := installChunk_transfer hplan
    refine ⟨hrevision, fun hacquires => ?_⟩
    have hreached := (hmoved htransfer).mp hadvances
    unfold acceptedAfter at hreached
    rw [if_pos hacquires] at hreached
    rw [hacquires, walkTarget_eq_ok] at hwalked
    by_cases hwalks : r.Walks folded
    · rw [if_pos ⟨rfl, hwalks⟩] at hwalked
      exact ⟨fun _ => hwalked.1 ▸ hwalked.2, fun _ => hreached (.inr hwalked.2)⟩
    · exact ⟨fun hwalks' => absurd hwalks' hwalks,
        fun honward => hreached (.inl (honward.resolve_right hwalks))⟩
  · rintro ⟨hrevision, hreaches⟩
    obtain ⟨walked, hwalked⟩ : ∃ walked,
        r.walkTarget (r.bootAcquisition view) folded = .ok walked := by
      by_cases hwalks : r.bootAcquisition view = true ∧ r.Walks folded
      · exact ⟨_, walkTarget_eq_ok.mpr (by
          rw [if_pos hwalks]
          exact ⟨rfl, (hreaches hwalks.1).1 hwalks.2⟩)⟩
      · exact ⟨none, walkTarget_eq_ok.mpr (by rw [if_neg hwalks])⟩
    obtain ⟨plan, hplan⟩ := h.isOk hr hframe hrevision hwalked
    obtain ⟨-, walked', fetched, hwalked', htransfer⟩ := installChunk_transfer hplan
    cases hwalked.symm.trans hwalked'
    refine ⟨plan, hplan, (hmoved htransfer).mpr fun honward => ?_⟩
    unfold acceptedAfter
    split
    · rename_i hacquires
      refine (hreaches hacquires).2 (honward.imp_right fun hsome => ?_)
      by_contra hwalks
      rw [walkTarget_eq_ok, if_neg fun hboth => hwalks hboth.2] at hwalked
      rw [hwalked] at hsome
      cases hsome
    · omega

end Install

/-! ### The answer -/

/-- **A fetch and its answer**: what the responder sends on the request, delivered while the fetch is
open as it was asked. -/
structure Answered (r source : Replica J) (view : Ballot) (responder asked : Nat) (chunk : Message)
    (entries : List LogEntry) (through committed : Nat) (more : Bool) : Prop where
  requester : r.Reached
  /-- The gate in front of every handler. -/
  unfaulted : r.progress.fault = none
  framed : (Journal.accepted r.journal).getD Slot.none = r.progress.accepted
  asks : r.transfer = some { view := view, recipient := responder, next := asked }
  serving : source.Reached
  named : source.own = responder
  served : ∃ request kind plan, request.header.view = view ∧
    source.planGetState r.own request asked kind = .ok plan ∧
    Effect.send r.own view.era chunk ∈ plan.effects
  body : chunk.body = .newState entries through committed more
  current : r.progress.committed ≤ source.progress.committed
  known : (r.progress.config.record view.era).isSome
  agrees : r.KeepsCommitted entries

/-- **The requester takes the answer**: it knows the responder and has a revision left, and the
answer ends what it already holds, or connects with its commits in order. -/
structure Takes (r : Replica J) (view : Ballot) (responder asked : Nat)
    (entries : List LogEntry) (through committed : Nat) (more : Bool) : Prop where
  member : ∃ record, r.progress.config.record view.era = some record ∧
    (record.config.weightOf responder).isSome
  room : r.progress.revision + 1 < u64Bound
  range : (through ≤ r.progress.accepted ∧ more = false) ∨
    (r.progress.accepted < through ∧ r.ConnectsAt asked ∧
      ∃ folded, r.foldCommitted entries r.progress.committed
          (r.chunkCommit view committed (max r.progress.accepted through)) true = .ok folded ∧
        (r.bootAcquisition view = true → r.Reaches asked more folded))

omit [LawfulJournal J] in
/-- What is sent on a request. -/
theorem planGetState_sends {sender asked recipient era : Nat} {request chunk : Message}
    {kind : InputKind} {plan : PlannedTransition}
    (h : source.planGetState sender request asked kind = .ok plan)
    (hsent : Effect.send recipient era chunk ∈ plan.effects) :
    ∃ last, (source.servedChunk asked).getLast? = some last ∧
      chunk = { header := { view := request.header.view, slot := last.slot }
                body := .newState (source.servedChunk asked) last.slot source.progress.committed
                  (decide (last.slot < source.progress.accepted)) } := by
  have hdrop : ∀ diagnostic, source.dropPlan diagnostic kind ≠ .ok plan := by
    intro diagnostic hdrop
    obtain ⟨candidate, -, rfl⟩ := dropPlan_ok hdrop
    cases hsent
  unfold planGetState at h
  dsimp only at h
  split at h
  · exact absurd h (hdrop _)
  · split at h
    · exact absurd h (hdrop _)
    · exact absurd h (hdrop _)
    · exact absurd h (hdrop _)
    all_goals
      split at h
      · exact absurd h (hdrop _)
      · rename_i last hlast
        obtain ⟨candidate, -, rfl⟩ := emitPlan_ok h
        cases List.mem_singleton.mp hsent
        exact ⟨last, hlast, rfl⟩

section Answer

variable {view : Ballot} {responder asked : Nat} {chunk : Message} {entries : List LogEntry}
  {through committed : Nat} {more : Bool} {kind : InputKind}

/-- The answer is a run from the slot asked for, and passes the guards of the requester. -/
theorem Answered.run
    (h : r.Answered source view responder asked chunk entries through committed more) :
    ContiguousFrom asked entries ∧ through + 1 = asked + entries.length ∧ entries ≠ [] ∧
      asked ≠ Slot.none ∧ r.progress.committed ≤ committed ∧ chunk.header.view = view ∧
      ¬(chunk.header.slot ≠ through ∨ (more = false ∧ through < committed) ∨
        suffixShapeOk entries through = false ∨ (entries = [] ∧ more = true)) := by
  obtain ⟨request, served, plan, rfl, hplan, hsent⟩ := h.served
  obtain ⟨last, hlast, rfl⟩ := planGetState_sends hplan hsent
  have hfounded := h.serving.founded
  obtain ⟨_, _, _, _, hbody, hrun, hheld, -, -, hformed, -⟩ :=
    serves_packed hfounded request.header.view source.progress.committed_le_accepted
      (show (packChunk source.journal source.knobs.viewChangeBudget
        (source.progress.accepted + 1 - asked) asked 0).getLast? = some last from hlast)
  cases h.body
  cases hbody
  have hsome : source.servedChunk asked ≠ [] := by
    intro hnil
    rw [hnil] at hlast
    cases hlast
  refine ⟨hrun, hrun.getLast?_slot hlast, hsome, ?_, h.current, rfl, hformed⟩
  rintro rfl
  cases hentries : source.servedChunk Slot.none with
  | nil => exact hsome hentries
  | cons first rest =>
    have hrun' : ContiguousFrom Slot.none (source.servedChunk Slot.none) := hrun
    have hfirst := hheld first (by
      show first ∈ source.servedChunk Slot.none
      rw [hentries]
      exact List.mem_cons_self)
    rw [hentries] at hrun'
    rw [hrun'.1, hfounded.void] at hfirst
    cases hfirst

/-- The front part of a run is a run. -/
theorem contiguousFrom_covered {start : Nat} (covered : Nat) {entries : List LogEntry}
    (h : ContiguousFrom start entries) :
    ContiguousFrom start (entries.filter fun entry => decide (entry.slot ≤ covered)) := by
  induction entries generalizing start with
  | nil => trivial
  | cons entry rest ih =>
    obtain ⟨hslot, hrest⟩ := h
    by_cases hle : entry.slot ≤ covered
    · rw [List.filter_cons_of_pos (by simpa using hle)]
      exact ⟨hslot, ih hrest⟩
    · have hnil : (entry :: rest).filter (fun entry => decide (entry.slot ≤ covered)) = [] := by
        rw [List.filter_eq_nil_iff]
        intro other hmem
        have := (show ContiguousFrom start (entry :: rest) from ⟨hslot, hrest⟩).mem_slot hmem
        rw [decide_eq_true_eq]
        omega
      rw [hnil]
      trivial

/-- What an acquisition journals of an answer that connects is installed as well. -/
theorem truncatedMutation_installs (hr : r.Reached)
    (hframe : (Journal.accepted r.journal).getD Slot.none = r.progress.accepted)
    (hrun : ContiguousFrom asked entries) (hreal : asked ≠ Slot.none)
    (hagrees : r.KeepsCommitted entries) (hconnects : r.ConnectsAt asked) (covered : Nat) :
    ∃ mutation, r.truncatedMutation entries covered committed = .install mutation := by
  unfold truncatedMutation
  dsimp only
  split
  · exact ⟨.none, rfl⟩
  · rename_i hsome
    rw [List.isEmpty_iff] at hsome
    refine (connectsAt_iff hframe hr (contiguousFrom_covered covered hrun) hsome hreal ?_).mpr
      hconnects
    exact fun entry hmem => hagrees entry (List.mem_of_mem_filter hmem)

/-- A message of an era whose members the sender is not among is dropped. -/
theorem Answered.unknown
    (h : r.Answered source view responder asked chunk entries through committed more)
    (hnot : ¬ ∃ record, r.progress.config.record view.era = some record ∧
      (record.config.weightOf responder).isSome) :
    r.planNewState responder chunk entries through committed more kind =
      r.dropPlan (.unknownSender responder) kind := by
  obtain ⟨record, hrecord⟩ := Option.isSome_iff_exists.mp h.known
  have hunknown : (record.config.weightOf responder).isNone := by
    rw [← Option.not_isSome, Bool.not_eq_true']
    exact Bool.eq_false_iff.mpr fun hmember => hnot ⟨record, hrecord, hmember⟩
  obtain ⟨-, -, -, -, -, hview, -⟩ := h.run
  unfold planNewState
  dsimp only
  rw [hview, hrecord]
  dsimp only
  rw [if_pos hunknown]

/-- The handler behind its guards. -/
theorem Answered.planNewState
    (h : r.Answered source view responder asked chunk entries through committed more)
    (hmember : ∃ record, r.progress.config.record view.era = some record ∧
      (record.config.weightOf responder).isSome) :
    r.planNewState responder chunk entries through committed more kind =
      if through ≤ r.progress.accepted then
        if more then r.dropPlan (.staleTransfer responder view) kind
        else do
          let plan ← r.emitPlan [] kind
          return plan.withBookkeeping { transfer := .clear }
      else
        match r.checkSuffix entries through committed Slot.none with
        | .gap expected got => r.dropPlan (.gapDetected expected got) kind
        | .conflict => r.breachPlan kind
        | .install mutation =>
          match r.foldCommitted entries r.progress.committed
              (r.chunkCommit view committed (max r.progress.accepted through)) true with
          | .error (.unavailable slot) => .error (.journalEntryUnavailable slot)
          | .error .splitBatch => r.dropPlan .fuseRefusal kind
          | .error (.breach _ _) => r.breachPlan kind
          | .ok folded =>
            match (if r.bootAcquisition view && decide (folded.covered < through) then
                r.truncatedMutation entries folded.covered committed
              else .install mutation) with
            | .gap expected got => r.dropPlan (.gapDetected expected got) kind
            | .conflict => r.breachPlan kind
            | .install mutation =>
              r.installChunk responder view entries through more folded mutation kind := by
  obtain ⟨record, hrecord, hmember⟩ := hmember
  obtain ⟨-, -, -, -, hcurrent, hview, hformed⟩ := h.run
  have hqualified : r.chunkQualified responder view = true := by
    unfold chunkQualified
    rw [h.asks]
    simp
  unfold Replica.planNewState
  dsimp only
  rw [hview, hrecord]
  dsimp only
  have hknown : ¬ (record.config.weightOf responder).isNone = true := by
    simpa [Option.isSome_iff_ne_none] using hmember
  have hanswers : ¬ (!r.chunkQualified responder view) = true := by simp [hqualified]
  exact (if_neg hknown).trans ((if_neg hformed).trans ((if_neg hanswers).trans
    (if_neg (Nat.not_lt.mpr hcurrent))))

/-- An answer that is held already closes the fetch, if it is the last. -/
theorem Answered.held_advances_iff
    (h : r.Answered source view responder asked chunk entries through committed more)
    (hmember : ∃ record, r.progress.config.record view.era = some record ∧
      (record.config.weightOf responder).isSome) (hheld : through ≤ r.progress.accepted) :
    r.FetchAdvances asked
        (r.planNewState responder chunk entries through committed more kind) ↔
      r.progress.revision + 1 < u64Bound ∧ more = false := by
  rw [h.planNewState hmember, if_pos hheld]
  cases more with
  | true => exact ⟨fun hadvances => absurd hadvances (not_advances_of_drop h.asks), nofun⟩
  | false =>
    constructor
    · rintro ⟨plan, hplan, -⟩
      obtain ⟨emitted, hemitted, -⟩ := bind_eq_ok.mp hplan
      obtain ⟨candidate, hcandidate, -⟩ := bind_eq_ok.mp hemitted
      unfold identityCandidate Progress.withStatus at hcandidate
      exact ⟨(Progress.transition_data (asCandidate_eq_ok.mp hcandidate)).2.1, rfl⟩
    · rintro ⟨hrevision, -⟩
      obtain ⟨candidate, hcandidate⟩ := identityCandidate_isOk h.unfaulted hrevision
      unfold emitPlan
      rw [hcandidate]
      exact ⟨_, rfl, fun fetch hfetch => by cases hfetch⟩

/-- An answer beyond what is held moves the fetch on, if it connects and folds. -/
theorem Answered.ahead_advances_iff
    (h : r.Answered source view responder asked chunk entries through committed more)
    (hmember : ∃ record, r.progress.config.record view.era = some record ∧
      (record.config.weightOf responder).isSome) (hahead : r.progress.accepted < through) :
    r.FetchAdvances asked
        (r.planNewState responder chunk entries through committed more kind) ↔
      r.progress.revision + 1 < u64Bound ∧ r.ConnectsAt asked ∧
        ∃ folded, r.foldCommitted entries r.progress.committed
            (r.chunkCommit view committed (max r.progress.accepted through)) true = .ok folded ∧
          (r.bootAcquisition view = true → r.Reaches asked more folded) := by
  obtain ⟨hrun, hends, hsome, hreal, -, -, -⟩ := h.run
  have hinstalls : (∃ mutation,
      r.checkSuffix entries through committed Slot.none = .install mutation) ↔
      r.ConnectsAt asked := connectsAt_iff h.framed h.requester hrun hsome hreal h.agrees
  rw [h.planNewState hmember, if_neg (Nat.not_le.mpr hahead)]
  cases hcheck : r.checkSuffix entries through committed Slot.none with
  | gap expected got =>
    refine ⟨fun hadvances => absurd hadvances (not_advances_of_drop h.asks), ?_⟩
    rintro ⟨-, hconnects, -⟩
    obtain ⟨mutation, hinstall⟩ := hinstalls.mpr hconnects
    rw [hcheck] at hinstall
    cases hinstall
  | conflict =>
    refine ⟨fun hadvances => absurd hadvances (not_advances_of_breach h.asks), ?_⟩
    rintro ⟨-, hconnects, -⟩
    obtain ⟨mutation, hinstall⟩ := hinstalls.mpr hconnects
    rw [hcheck] at hinstall
    cases hinstall
  | install mutation =>
    have hconnects := hinstalls.mp ⟨mutation, hcheck⟩
    dsimp only
    cases hfold : r.foldCommitted entries r.progress.committed
        (r.chunkCommit view committed (max r.progress.accepted through)) true with
    | error error =>
      constructor
      · intro hadvances
        cases error with
        | unavailable slot =>
          obtain ⟨plan, hplan, -⟩ := hadvances
          cases hplan
        | splitBatch => exact absurd hadvances (not_advances_of_drop h.asks)
        | breach slot error => exact absurd hadvances (not_advances_of_breach h.asks)
      · rintro ⟨-, -, folded, hfolded, -⟩
        cases hfolded
    | ok folded =>
      have hanswer : r.FoldedAnswer view asked through committed entries folded :=
        ⟨hrun, hends, hsome, hconnects, hahead, hfold⟩
      obtain ⟨part, hpart⟩ : ∃ part, (if r.bootAcquisition view && decide (folded.covered < through)
          then r.truncatedMutation entries folded.covered committed
          else .install mutation) = .install part := by
        split
        · exact truncatedMutation_installs h.requester h.framed hrun hreal h.agrees hconnects _
        · exact ⟨mutation, rfl⟩
      dsimp only
      rw [hpart]
      dsimp only
      rw [hanswer.advances_iff h.requester h.framed]
      constructor
      · rintro ⟨hrevision, hreaches⟩
        exact ⟨hrevision, hconnects, folded, rfl, hreaches⟩
      · rintro ⟨hrevision, -, folded', hfolded, hreaches⟩
        cases hfolded
        exact ⟨hrevision, hreaches⟩

/-- **Which answers move the fetch on.** -/
theorem fetch_advances_iff
    (h : r.Answered source view responder asked chunk entries through committed more) :
    r.FetchAdvances asked
        (r.planNewState responder chunk entries through committed more kind) ↔
      r.Takes view responder asked entries through committed more := by
  by_cases hmember : ∃ record, r.progress.config.record view.era = some record ∧
      (record.config.weightOf responder).isSome
  · rcases Nat.lt_or_ge r.progress.accepted through with hahead | hheld
    · rw [h.ahead_advances_iff hmember hahead]
      constructor
      · rintro ⟨hrevision, hconnects, hfolds⟩
        exact ⟨hmember, hrevision, .inr ⟨hahead, hconnects, hfolds⟩⟩
      · rintro ⟨-, hrevision, ⟨hheld, -⟩ | ⟨-, hconnects, hfolds⟩⟩
        · omega
        · exact ⟨hrevision, hconnects, hfolds⟩
    · rw [h.held_advances_iff hmember hheld]
      constructor
      · rintro ⟨hrevision, hlast⟩
        exact ⟨hmember, hrevision, .inl ⟨hheld, hlast⟩⟩
      · rintro ⟨-, hrevision, ⟨-, hlast⟩ | ⟨hahead, -⟩⟩
        · exact ⟨hrevision, hlast⟩
        · omega
  · rw [h.unknown hmember]
    exact ⟨fun hadvances => absurd hadvances (not_advances_of_drop h.asks),
      fun htakes => absurd htakes.member hmember⟩

end Answer

/-! ### A backup that misses a slot -/

/-- A backup of the fresh cluster given the prepares of some slots in turn. -/
def preparedWith (slots : List Nat) : Option (Replica SegmentedLog) :=
  freshThird.map fun fresh => slots.foldl (fun r slot => (r.step (prepareNext slot)).1) fresh

theorem preparedWith_reached {slots : List Nat} {r : Replica SegmentedLog}
    (h : preparedWith slots = some r) : r.Reached := by
  obtain ⟨fresh, hfresh, rfl⟩ := Option.map_eq_some_iff.mp h
  have hreached : fresh.Reached := .provision (toOption_eq_some hfresh)
  clear h hfresh
  induction slots generalizing fresh with
  | nil => exact hreached
  | cons slot slots ih => exact ih _ (hreached.step _)

/-- The primary of the first view, whose chunks hold one entry of the idle client each. -/
def primaryWith (operations : Nat) : Option (Replica SegmentedLog) :=
  (provision 1 [1, 2, 3] weightedMajority (SegmentedLog.withTailCapacity 4) .volatile
    { primaryTimeout := 0, viewChangeBudget := 50 }).toOption.map fun fresh =>
      (List.replicate operations (Input.propose ⟨⟨0, 0⟩, []⟩)).foldl
        (fun r event => (r.step { time := 1, event := event }).1)
        (fresh.step { time := 1, event := .tick }).1

theorem primaryWith_reached {operations : Nat} {r : Replica SegmentedLog}
    (h : primaryWith operations = some r) : r.Reached := by
  obtain ⟨fresh, hfresh, rfl⟩ := Option.map_eq_some_iff.mp h
  have hreached : (fresh.step { time := 1, event := .tick }).1.Reached :=
    (Reached.provision (toOption_eq_some hfresh)).step _
  generalize (fresh.step { time := 1, event := .tick }).1 = r at hreached
  generalize List.replicate operations (Input.propose ⟨⟨0, 0⟩, []⟩) = events
  induction events generalizing r with
  | nil => exact hreached
  | cons event events ih => exact ih _ (hreached.step _)

/-- The chunk of one entry that is not the last. -/
def chunkOf (slot : Nat) : Message where
  header := { view := { era := 1, view := 0 }, slot := slot }
  body := .newState [clientEntry slot] slot 2 true

/-- The request a backup's fetch sends. -/
def requestFrom (asked : Nat) : Message where
  header := { view := { era := 1, view := 0 }, slot := asked }
  body := .getState asked

/-- What the answer to a backup's fetch takes, all at once. -/
def answered (r source : Replica SegmentedLog) (asked : Nat) : Bool :=
  r.progress.fault.isNone &&
    decide ((Journal.accepted r.journal).getD Slot.none = r.progress.accepted ∧
      r.transfer = some { view := ⟨1, 0⟩, recipient := 1, next := asked } ∧ source.own = 1 ∧
      r.progress.committed = 2 ∧ source.progress.committed = 2 ∧ 2 < asked ∧
      (r.progress.config.record 1).isSome = true ∧
      (source.planGetState r.own (requestFrom asked) asked (.peerMessage .getState asked)).toOption.map
        PlannedTransition.effects = some [.send r.own 1 (chunkOf asked)])

theorem answered_of {r source : Replica SegmentedLog} {asked : Nat} (hr : r.Reached)
    (hsource : source.Reached) (h : r.answered source asked = true) :
    r.Answered source ⟨1, 0⟩ 1 asked (chunkOf asked) [clientEntry asked] asked 2 true := by
  simp only [answered, Bool.and_eq_true, Option.isNone_iff_eq_none, decide_eq_true_eq] at h
  obtain ⟨hfault, hframe, hopen, hnamed, hcommitted, hserved, hbeyond, hknown, hplan⟩ := h
  obtain ⟨plan, hplan, heffects⟩ := Option.map_eq_some_iff.mp hplan
  refine ⟨hr, hfault, hframe, hopen, hsource, hnamed, ⟨requestFrom asked, _, plan, rfl,
    toOption_eq_some hplan, ?_⟩, rfl, by omega, hknown, ?_⟩
  · rw [heffects]
    exact List.mem_singleton_self _
  · intro entry hmem hle
    obtain rfl := List.mem_singleton.mp hmem
    have hslot : asked ≤ r.progress.committed := hle
    omega

/-- The backup misses the fourth slot, and the chunk brings it: the fetch moves on. -/
theorem fetch_advances_missed : ∃ (r source : Replica SegmentedLog),
    r.Answered source ⟨1, 0⟩ 1 4 (chunkOf 4) [clientEntry 4] 4 2 true ∧
      r.FetchAdvances 4 (r.planNewState 1 (chunkOf 4) [clientEntry 4] 4 2 true
        (.peerMessage .newState 4)) := by
  have hsource : ((primaryWith 3).map fun source => decide (source.own = 1)) = some true := by
    decide +kernel
  obtain ⟨source, hsource, -⟩ := Option.map_eq_some_iff.mp hsource
  have hstate : ((preparedWith [3, 5]).bind fun r => (primaryWith 3).map fun source =>
      (r.answered source 4, decide (r.progress.accepted = 3 ∧
        r.progress.revision + 1 < u64Bound ∧ r.bootAcquisition ⟨1, 0⟩ = false ∧
        ((r.progress.config.record 1).bind fun record => record.config.weightOf 1).isSome ∧
        (r.foldCommitted [clientEntry 4] r.progress.committed
          (r.chunkCommit ⟨1, 0⟩ 2 (max r.progress.accepted 4)) true).toOption.isSome = true))) =
      some (true, true) := by decide +kernel
  rw [Option.bind_eq_some_iff] at hstate
  obtain ⟨r, hr, hstate⟩ := hstate
  rw [hsource, Option.map_some, Option.some.injEq, Prod.mk.injEq, decide_eq_true_eq] at hstate
  obtain ⟨hanswered, haccepted, hrevision, hserving, hmember, hfolds⟩ := hstate
  obtain ⟨folded, hfolded⟩ := Option.isSome_iff_exists.mp hfolds
  have hanswer := answered_of (preparedWith_reached hr) (primaryWith_reached hsource) hanswered
  refine ⟨r, source, hanswer, (fetch_advances_iff hanswer).mpr ⟨?_, hrevision, .inr ⟨?_, ?_, folded,
    toOption_eq_some hfolded, fun hboot => ?_⟩⟩⟩
  · cases hrecord : r.progress.config.record 1 with
    | none =>
      rw [hrecord] at hmember
      cases hmember
    | some record =>
      rw [hrecord] at hmember
      exact ⟨record, rfl, hmember⟩
  · omega
  · exact .inl (haccepted ▸ rfl)
  · rw [hserving] at hboot
    cases hboot

/-- **A chunk of what came in by prepares leaves the fetch as it was**: the backup missed the third
slot and has it and the next one by now, and the chunk brings the third with more to come. -/
theorem fetch_stays_caught_up : ¬ ∀ (r source : Replica SegmentedLog) (view : Ballot)
    (responder asked : Nat) (chunk : Message) (entries : List LogEntry) (through committed : Nat)
    (more : Bool) (kind : InputKind),
    r.Answered source view responder asked chunk entries through committed more →
      r.FetchAdvances asked
        (r.planNewState responder chunk entries through committed more kind) := by
  intro hall
  have hsource : ((primaryWith 2).map fun source => decide (source.own = 1)) = some true := by
    decide +kernel
  obtain ⟨source, hsource, -⟩ := Option.map_eq_some_iff.mp hsource
  have hstate : ((preparedWith [4, 3, 4]).bind fun r => (primaryWith 2).map fun source =>
      (r.answered source 3, (r.planNewState 1 (chunkOf 3) [clientEntry 3] 3 2 true
        (.peerMessage .newState 3)).toOption.map fun plan =>
          plan.bookkeeping.transfer.applyTo r.transfer)) =
      some (true, some (some { view := ⟨1, 0⟩, recipient := 1, next := 3 })) := by decide +kernel
  rw [Option.bind_eq_some_iff] at hstate
  obtain ⟨r, hr, hstate⟩ := hstate
  rw [hsource, Option.map_some, Option.some.injEq, Prod.mk.injEq] at hstate
  obtain ⟨hanswered, hstays⟩ := hstate
  have hanswer := answered_of (preparedWith_reached hr) (primaryWith_reached hsource) hanswered
  obtain ⟨plan, hplan, hadvances⟩ := hall r source _ _ _ _ _ _ _ _ (.peerMessage .newState 3) hanswer
  rw [hplan] at hstays
  have hsame : plan.bookkeeping.transfer.applyTo r.transfer =
      some { view := ⟨1, 0⟩, recipient := 1, next := 3 } := Option.some.inj hstays
  exact lt_irrefl _ (hadvances _ hsame)

end Replica

end UvrrCore
