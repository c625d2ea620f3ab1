import UvrrCore.Acknowledged
import UvrrCore.Adoption
import UvrrCore.Chunks

/-!
# The commit a prepare carries

A prepare brings the next entry and the primary's committed frontier. The backup folds the range
the frontier newly covers with the arriving entry laid over its journal, and then reads the
operations to apply from the journal as it is: where the range takes in the arriving entry, that
read finds nothing and the prepare is refused.

* `foldRest_next`: the fold of a range that ends in a client operation, from the fold before it.
* `Folding.Windowed`: the era window a paced fold of a serving replica keeps to.
* `foldCommitted_next`: the fold over the arriving entry, from the fold of what is held.
* `absorbs_iff`: when the next prepare is absorbed.
-/

namespace UvrrCore

/-! ### A fold and the client operation behind it -/

section Fold

variable {read read' : Nat → Option LogEntry} {runFuel runFuel' through limit : Nat}
  {current : Ballot} {paced : Bool}

/-- No system entry at a slot. -/
def NoSystemAt (read : Nat → Option LogEntry) (slot : Nat) : Prop :=
  ∀ entry op, read slot = some entry → entry.payload ≠ .system op

theorem ClientAt.noSystemAt {slot : Nat} (h : ClientAt read slot) : NoSystemAt read slot := by
  obtain ⟨entry, id, payload, hread, hpayload⟩ := h
  intro entry' op hread' hop
  rw [hread] at hread'
  cases hread'
  rw [hpayload] at hop
  cases hop

/-- A run ends in front of a slot without a system entry. -/
theorem runAfter_within (hend : NoSystemAt read (limit + 1)) (era fuel : Nat) {slot : Nat}
    (hslot : slot ≤ limit) : slot + (runAfter read era fuel slot).length ≤ limit := by
  induction fuel generalizing slot with
  | zero => exact hslot
  | succ fuel ih =>
    unfold runAfter
    split
    · exact hslot
    · rename_i follow hfollow
      obtain rfl := (Slot.next_eq_some.mp hfollow).2
      split
      · exact hslot
      · rename_i entry hread
        split
        · exact hslot
        · split
          · exact hslot
          · rename_i op hpayload
            have hbelow : slot + 1 ≤ limit := by
              by_contra hpast
              rw [show slot + 1 = limit + 1 by omega] at hread
              exact hend entry op hread hpayload
            have := ih hbelow
            rw [List.length_cons]
            omega

/-- Reads that agree up to a limit find the same runs below it. -/
theorem runAfter_congr (hsame : ∀ slot ≤ limit, read slot = read' slot)
    (hend : NoSystemAt read (limit + 1)) (hend' : NoSystemAt read' (limit + 1))
    {era fuel fuel' slot : Nat} (hslot : slot ≤ limit) (hfuel : limit - slot < fuel)
    (hfuel' : limit - slot < fuel') :
    runAfter read era fuel slot = runAfter read' era fuel' slot := by
  induction fuel generalizing slot fuel' with
  | zero => omega
  | succ fuel ih =>
    by_cases hat : slot = limit
    · have hnone : (runAfter read era (fuel + 1) slot).length = 0 := by
        have := runAfter_within hend era (fuel + 1) hslot
        omega
      have hnone' : (runAfter read' era fuel' slot).length = 0 := by
        have := runAfter_within hend' era fuel' hslot
        omega
      rw [List.length_eq_zero_iff.mp hnone, List.length_eq_zero_iff.mp hnone']
    · obtain ⟨fuel', rfl⟩ := Nat.exists_eq_add_of_le' (show 1 ≤ fuel' by omega)
      unfold runAfter
      cases hnext : Slot.next slot with
      | none => rfl
      | some follow =>
        obtain rfl := (Slot.next_eq_some.mp hnext).2
        simp only
        rw [hsame _ (by omega)]
        cases read' (slot + 1) with
        | none => rfl
        | some entry =>
          have hrest : runAfter read era fuel (slot + 1) = runAfter read' era fuel' (slot + 1) :=
            ih (by omega) (by omega) (by omega)
          simp only
          rw [hrest]

/-- Reads that agree up to a limit fold the same below it. -/
theorem foldRest_congr (hsame : ∀ slot ≤ limit, read slot = read' slot)
    (hend : NoSystemAt read (limit + 1)) (hend' : NoSystemAt read' (limit + 1))
    (hfuel : limit < runFuel) (hfuel' : limit < runFuel') (hthrough : through ≤ limit)
    (folding : Folding) :
    foldRest read runFuel current through paced folding =
      foldRest read' runFuel' current through paced folding := by
  unfold foldRest
  generalize hrounds : through - folding.covered = rounds
  clear hrounds
  induction rounds generalizing folding with
  | zero => rfl
  | succ rounds ih =>
    by_cases hle : through ≤ folding.covered
    · rw [foldSlotsThrough_done hle, foldSlotsThrough_done hle]
    · have hlt := Nat.lt_of_not_le hle
      rw [foldSlotsThrough_succ hlt, foldSlotsThrough_succ hlt, hsame _ (by omega)]
      cases read' (folding.covered + 1) with
      | none => rfl
      | some entry =>
        have hrun : runAfter read entry.era runFuel (folding.covered + 1) =
            runAfter read' entry.era runFuel' (folding.covered + 1) :=
          runAfter_congr hsame hend hend' (by omega) (by omega) (by omega)
        simp only
        rw [hrun]
        split
        · exact ih _
        · split
          · rfl
          · split
            · rfl
            · exact ih _

theorem foldRest_unavailable {folding : Folding} (hlt : folding.covered < through)
    (hread : read (folding.covered + 1) = none) :
    foldRest read runFuel current through paced folding =
      .error (.unavailable (folding.covered + 1)) := by
  unfold foldRest
  obtain ⟨m, hm⟩ := Nat.exists_eq_add_of_le' (show 1 ≤ through - folding.covered by omega)
  rw [hm, foldSlotsThrough_succ hlt, hread]

/-- A run inside a range folds the same whatever the range goes on with. -/
theorem extendRun_within {table : EraTable} {op : SystemOperation} {follow : List SystemOperation}
    {slot longer : Nat} (hwithin : slot + follow.length ≤ through) (hle : through ≤ longer) :
    extendRun table op follow slot longer = extendRun table op follow slot through := by
  unfold extendRun
  simp only
  rw [if_neg (show ¬ through < slot + follow.length by omega),
    if_neg (show ¬ longer < slot + follow.length by omega)]

/-- **The fold of a range that ends in a client operation**: the fold before it, and the operation
unless the era window stopped the fold. -/
theorem foldRest_next (hclient : ClientAt read (limit + 1)) {folding : Folding}
    (hcovered : folding.covered ≤ limit) (hstopped : folding.stopped = false) :
    foldRest read runFuel current (limit + 1) paced folding =
      (foldRest read runFuel current limit paced folding).map fun end_ =>
        if end_.stopped then end_ else { end_ with covered := limit + 1 } := by
  generalize hleft : limit - folding.covered = left
  induction left using Nat.strong_induction_on generalizing folding with
  | _ left ih =>
    by_cases hdone : folding.covered = limit
    · have hat : foldRest read runFuel current limit paced folding = .ok folding :=
        foldSlotsThrough_done hdone.ge
      have hnext : foldRest read runFuel current (limit + 1) paced
          { folding with covered := folding.covered + 1 } =
          .ok { folding with covered := folding.covered + 1 } :=
        foldSlotsThrough_done (by show limit + 1 ≤ folding.covered + 1; omega)
      rw [foldRest_operation (by omega) (hdone ▸ hclient), hnext, hat, hdone]
      simp [Except.map, hstopped]
    · cases hread : read (folding.covered + 1) with
      | none =>
        rw [foldRest_unavailable (by omega) hread, foldRest_unavailable (by omega) hread]
        rfl
      | some entry =>
        cases hpayload : entry.payload with
        | operation id payload =>
          have hhere : ClientAt read (folding.covered + 1) := ⟨entry, id, payload, hread, hpayload⟩
          rw [foldRest_operation (by omega) hhere, foldRest_operation (by omega) hhere]
          exact ih _ (by show limit - (folding.covered + 1) < left; omega)
            (by show folding.covered + 1 ≤ limit; omega) hstopped rfl
        | system op =>
          have hwithin := runAfter_within hclient.noSystemAt entry.era runFuel
            (show folding.covered + 1 ≤ limit by omega)
          rw [foldRest_run (by omega) hread hpayload, foldRest_run (by omega) hread hpayload,
            extendRun_within hwithin (Nat.le_succ limit)]
          cases hextend : extendRun folding.table op
            (runAfter read entry.era runFuel (folding.covered + 1)) (folding.covered + 1)
            limit with
          | error error => rfl
          | ok result =>
            obtain ⟨extended, ops, last⟩ := result
            obtain ⟨hlow, hhigh⟩ := extendRun_last hextend (by omega)
            simp only
            split
            · rfl
            · exact ih _ (by show limit - last < left; omega) hhigh hstopped rfl

/-- A ballot runs, and the table is at its era or at the next one. -/
def Folding.Windowed (folding : Folding) : Prop :=
  ∃ view, folding.running = some view ∧ (folding.table.current.era = view.era ∨
    Era.next view.era = some folding.table.current.era)

/-- A run takes a sound table one era on. -/
theorem extendRun_sound {table extended : EraTable} {op : SystemOperation}
    {follow ops : List SystemOperation} {covered last : Nat} (hsound : table.Sound covered)
    (h : extendRun table op follow (covered + 1) through = .ok (extended, ops, last)) :
    extended.Sound last ∧ extended.current.era = table.current.era + 1 := by
  have hone : ∀ {op : SystemOperation}, table.extend op (covered + 1) = .ok extended →
      covered + 1 ≤ last →
      extended.Sound last ∧ extended.current.era = table.current.era + 1 := by
    intro op hop hle
    obtain ⟨config, -, hera, -, rfl⟩ := hsound.extend_eq (Nat.lt_succ_self _) hop
    exact ⟨(hsound.extend (Nat.lt_succ_self _) hop).later hle, hera⟩
  rcases extendRun_cases h with ⟨hop, -, rfl⟩ | ⟨-, -, hop, -, rfl⟩
  · exact hone hop (Nat.le_refl _)
  · exact hone hop (Nat.le_add_right _ _)

theorem foldSlotsThrough_era_le {rounds : Nat} {folding folded : Folding}
    (h : foldSlotsThrough read runFuel current through paced rounds folding = .ok folded)
    (hsound : folding.table.Sound folding.covered) :
    folding.table.current.era ≤ folded.table.current.era := by
  refine (foldSlotsThrough_induct (P := fun f => f.table.Sound f.covered ∧
    folding.table.current.era ≤ f.table.current.era) ?_ ?_ ?_ ⟨hsound, Nat.le_refl _⟩ h).2
  · intro f entry id payload hf _ _ _
    exact ⟨hf.1.later (Nat.le_succ _), hf.2⟩
  · intro f entry op extended ops last hf hlt _ _ hextend _
    obtain ⟨hgrown, hera⟩ := extendRun_sound hf.1 hextend
    exact ⟨hgrown, by show _ ≤ extended.current.era; omega⟩
  · intro f hf _ _
    exact hf

/-- Nominations leave the ballot, or move it into the established era. -/
theorem runNominations_cases (running : Option Ballot) (ops : List SystemOperation) (era : Nat) :
    runNominations running ops era = running ∨
      ∃ view, runNominations running ops era = some view ∧ view.era = era := by
  unfold runNominations
  generalize ops.flatMap SystemOperation.riders = riders
  induction riders generalizing running with
  | nil => exact .inl rfl
  | cons rider riders ih =>
    rw [List.foldl_cons]
    have hstep : runRider era running rider = running ∨
        ∃ view, runRider era running rider = some view ∧ view.era = era := by
      unfold runRider
      split
      · split
        · exact .inr ⟨_, rfl, rfl⟩
        · exact .inl rfl
      · exact .inl rfl
    rcases ih (runRider era running rider) with hrest | hrest
    · rcases hstep with hstep | ⟨view, hstep, hera⟩
      · exact .inl (hrest.trans hstep)
      · exact .inr ⟨view, hrest.trans hstep, hera⟩
    · exact .inr hrest

/-- **A paced fold of a serving replica keeps to its era window.** -/
theorem foldSlotsThrough_windowed {rounds : Nat} {folding folded : Folding}
    (h : foldSlotsThrough read runFuel current through true rounds folding = .ok folded)
    (hsound : folding.table.Sound folding.covered) (hwindow : folding.Windowed) :
    folded.Windowed := by
  refine (foldSlotsThrough_induct (P := fun f => f.table.Sound f.covered ∧ f.Windowed)
    ?_ ?_ ?_ ⟨hsound, hwindow⟩ h).2
  · intro f entry id payload hf _ _ _
    exact ⟨hf.1.later (Nat.le_succ _), hf.2⟩
  · intro f entry op extended ops last hf hlt _ _ hextend hspent
    obtain ⟨hsound, view, hview, hwindow⟩ := hf
    obtain ⟨hgrown, hera⟩ := extendRun_sound hsound hextend
    refine ⟨hgrown, ?_⟩
    rcases runNominations_cases f.running ops extended.current.era with hsame | ⟨next, hnext, hat⟩
    · -- the ballot stays, so the window has room for the era
      refine ⟨view, hsame.trans hview, .inr ?_⟩
      show Era.next view.era = some extended.current.era
      rw [Bool.true_and, hsame, hview] at hspent
      unfold windowSpent at hspent
      simp only [Option.map_some, Option.getD_some, BEq.rfl, Bool.and_true] at hspent
      split at hspent
      · rename_i cap hcap
        have hcap' := (Era.next_eq_some.mp hcap).2
        rw [decide_eq_false_iff_not] at hspent
        have hlow : view.era ≤ f.table.current.era := by
          rcases hwindow with heq | hnext
          · omega
          · have := (Era.next_eq_some.mp hnext).2
            omega
        rw [hcap, show cap = extended.current.era by omega]
      · cases hspent
    · exact ⟨next, hnext, .inl hat.symm⟩
  · intro f hf _ _
    exact hf

end Fold

namespace Replica

variable {J : Type} [Journal J] [LawfulJournal J] {r : Replica J}

/-! ### What a reachable replica reads -/

theorem mutateJournal_first {journal journal' : J} (h : Founded journal)
    {mutation : JournalMutation} (hjournal : mutateJournal journal mutation = .ok journal') :
    (Journal.retained journal').1 = (Journal.retained journal).1 := by
  obtain ⟨frontier, hfrontier⟩ := Option.isSome_iff_exists.mp h.frontier
  cases mutation with
  | none =>
    cases hjournal
    rfl
  | accept entries =>
    cases entries with
    | nil =>
      have hsame : Journal.accept journal [] = .ok journal' := hjournal
      rw [LawfulJournal.accept_nil] at hsame
      cases hsame
      rfl
    | cons entry rest => exact (LawfulJournal.accept_ok hfrontier hjournal).2.2.1
  | installSuffix cut suffix =>
    exact (LawfulJournal.installSuffix_ok hfrontier hjournal).2.2.2.2.1

omit [Journal J] [LawfulJournal J] in
theorem faultNode_checkpoint (r : Replica J) (fault : Fault) :
    (r.faultNode fault).progress.checkpoint = r.progress.checkpoint := by
  rcases faultNode_cases r fault with heq | ⟨progress, heq, hdata⟩
  · rw [heq]
  · rw [heq]
    show progress.checkpoint = _
    rw [hdata]

/-- A reachable replica holds everything above its checkpoint. -/
theorem Reached.retains (hr : r.Reached) :
    (Journal.retained r.journal).1 ≤ r.progress.checkpoint + 1 := by
  induction hr with
  | provision h =>
    obtain ⟨table, journal', progress, -, hempty, hinstall, -, rfl⟩ := provision_data h
    obtain ⟨-, -, -, hfirst, -⟩ := LawfulJournal.installSuffix_fresh hempty hinstall
    show (Journal.retained journal').1 ≤ progress.checkpoint + 1
    rw [hfirst]
    exact Nat.le_add_left _ _
  | @step r hr input ih =>
    have houtcome := step_outcome r input
    generalize r.step input = out at houtcome
    cases houtcome with
    | refused => exact ih
    | faulted fault =>
      show (Journal.retained (r.faultNode fault).journal).1 ≤
        (r.faultNode fault).progress.checkpoint + 1
      rw [faultNode_journal, faultNode_checkpoint]
      exact ih
    | diverged plan hplan hlegal =>
      show (Journal.retained (faultNode _ _).journal).1 ≤ (faultNode _ _).progress.checkpoint + 1
      rw [faultNode_journal, faultNode_checkpoint]
      exact ih
    | parked plan hplan hfresh hstability hnone => exact ih
    | published plan journal hplan hbase hfault hlegal hjournal =>
      have hfirst := mutateJournal_first hr.founded hjournal
      have hcheckpoint := checkpoint_le_of_legal hlegal
      show (Journal.retained journal).1 ≤ plan.candidate.checkpoint + 1
      omega
  | reclaim hr h ih => exact h.first ih
  | reopen hr h ih =>
    obtain ⟨progress, hdata, rfl⟩ := reopenFenced_data h
    show _ ≤ progress.checkpoint + 1
    rw [hdata]
    exact ih
  | witnesses hr witnesses ih => exact ih

theorem Reached.readable (hr : r.Reached)
    (hframe : (Journal.accepted r.journal).getD Slot.none = r.progress.accepted) {slot : Nat}
    (hlow : r.progress.checkpoint < slot) (hhigh : slot ≤ r.progress.accepted) :
    ∃ entry, Journal.get r.journal slot = some entry := by
  obtain ⟨frontier, hfrontier⟩ := Option.isSome_iff_exists.mp hr.founded.frontier
  rw [hfrontier, Option.getD_some] at hframe
  have hretains := hr.retains
  exact Option.isSome_iff_exists.mp
    (LawfulJournal.get_isSome hfrontier (by omega) (by omega))

/-! ### The next prepare -/

/-- **The next prepare**: the primary of the current view sends a serving replica the client
operation behind its accepted frontier, stamped with the committed era. -/
structure NextPrepare (r : Replica J) (sender : Nat) (message : Message) (entry : LogEntry) :
    Prop where
  /-- The gate in front of every handler. -/
  framed : (Journal.accepted r.journal).getD Slot.none = r.progress.accepted
  serving : r.progress.status = .normal
  view : message.header.view = r.progress.current
  primary : r.primaryOf r.progress.current = some sender
  named : message.header.slot = entry.slot
  next : entry.slot = r.progress.accepted + 1
  bounded : entry.slot < u64Bound
  client : ∃ id payload, entry.payload = .operation id payload
  stamped : entry.era = r.progress.config.current.era

/-- The committed frontier the piggyback asks for. -/
def askedFrontier (r : Replica J) (entry : LogEntry) (piggybacked : Nat) : Nat :=
  max r.progress.committed (min piggybacked entry.slot)

/-- **A prepare is absorbed**: journaled, answered, committed as far as the piggyback asks or the
paced fold gets, and every client operation newly committed is released. -/
structure Absorbed (r : Replica J) (sender : Nat) (entry : LogEntry) (piggybacked : Nat)
    (plan : PlannedTransition) : Prop where
  journal : plan.journal = .accept [entry]
  fault : plan.fault = none
  answers : prepareOk r.progress.current sender entry.slot ∈ plan.effects
  accepted : plan.candidate.accepted = entry.slot
  committed : plan.candidate.committed = r.askedFrontier entry piggybacked ∨
    ∃ folded, r.foldCommitted [entry] r.progress.committed (r.askedFrontier entry piggybacked) true =
      .ok folded ∧ folded.stopped = true ∧ plan.candidate.committed = folded.covered
  applies : ∀ slot held id payload, r.progress.committed < slot →
    slot ≤ plan.candidate.committed → merged r.journal [entry] slot = some held →
    held.payload = .operation id payload → .apply slot id payload ∈ plan.effects

omit [LawfulJournal J] in
/-- A reachable record is in the era window of its ballot. -/
theorem Reached.window (hr : r.Reached) :
    r.progress.config.current.era = r.progress.current.era ∨
      Era.next r.progress.current.era = some r.progress.config.current.era := by
  have hera := r.progress.eraDiscipline
  unfold ProgressData.EraDiscipline EraTable.eraOfSlot at hera
  rwa [if_pos (hr.tabled.published.established.trans r.progress.committed_le_accepted)] at hera

omit [LawfulJournal J] in
/-- The record behind a paced fold of a serving replica passes its check. -/
theorem candidateWith_folded (hr : r.Reached) (hserving : r.progress.status = .normal)
    (hrevision : r.progress.revision + 1 < u64Bound) {overlay : List LogEntry}
    {through accepted applied : Nat} {folded : FoldedCommit}
    (hfold : r.foldCommitted overlay r.progress.committed through true = .ok folded)
    (haccepted : folded.covered ≤ accepted) (happlied : r.progress.applied ≤ applied)
    (hwalked : applied ≤ folded.covered) :
    ∃ candidate, r.candidateWith .normal accepted folded.covered applied folded.config folded.bump =
      .ok candidate := by
  obtain ⟨end_, hend, rfl⟩ := foldCommitted_ok hfold
  have hsound : (r.folding r.progress.committed).table.Sound
      (r.folding r.progress.committed).covered := hr.tabled.published
  have hwindow : (r.folding r.progress.committed).Windowed := by
    refine ⟨r.progress.current, ?_, hr.window⟩
    unfold folding
    rw [if_pos hserving]
  obtain ⟨view, hview, hera⟩ := foldSlotsThrough_windowed hend hsound hwindow
  have hcurrent : (end_.running.filter fun view => view != r.progress.current).getD
      r.progress.current = view := by
    rw [filter_getD, hview]
    rfl
  have hretained := Progress.current_eq_retained hserving
  refine nextRecord_of_check hrevision (ProgressData.check_eq_ok.mpr ⟨⟨?_, hwalked, haccepted⟩, ?_, ?_⟩)
  · exact r.progress.checkpoint_le_applied.trans happlied
  · show (end_.running.filter _).getD r.progress.current =
      (end_.running.filter _).getD r.progress.retained
    rw [hretained]
  · have hslot : EraTable.eraOfSlot end_.table accepted = some end_.table.current.era :=
      if_pos ((hsound.fold hend).established.trans haccepted)
    refine ProgressData.eraDiscipline_of_eraOfSlot hslot ?_
    show end_.table.current.era = ((end_.running.filter _).getD r.progress.current).era ∨
      Era.next ((end_.running.filter _).getD r.progress.current).era = some end_.table.current.era
    rw [hcurrent]
    exact hera

omit [LawfulJournal J] in
/-- The handler comes to the acceptance of the next slot. -/
theorem NextPrepare.planPrepare (hr : r.Reached) {sender : Nat} {message : Message}
    {entry : LogEntry} (h : r.NextPrepare sender message entry) (piggybacked time : Nat)
    (kind : InputKind) :
    r.planPrepare sender message entry piggybacked time kind =
      r.planNextPrepare sender r.progress.current entry piggybacked .normal kind := by
  have hrecord : (r.progress.config.record r.progress.current.era).isNone = false := by
    have hprimary := h.primary
    unfold primaryOf at hprimary
    split at hprimary
    · cases hprimary
    · rename_i record hrecord
      rw [hrecord]
      rfl
  have hera : entry.era = r.progress.current.era ∨
      Era.next r.progress.current.era = some entry.era := by
    rw [h.stamped]
    exact hr.window
  have hnext : Slot.next r.progress.accepted = some entry.slot :=
    Slot.next_eq_some.mpr ⟨by have := h.bounded; have := h.next; omega, h.next⟩
  have hslot := h.next
  unfold Replica.planPrepare
  simp only [h.view]
  rw [if_neg (by simp [hrecord]), if_neg (by simp [h.primary]),
    if_neg (by simp), if_neg (by simp), if_neg (by simp [h.serving]),
    if_neg (not_not.mpr hera),
    if_neg (by simp [h.named]), if_neg (by omega), hnext]
  simp only
  rw [if_neg (by simp), adoptedStatus_normal h.serving]

section Next

variable {entry : LogEntry}

omit [LawfulJournal J] in
/-- Below its slot the arriving entry hides nothing. -/
theorem merged_arriving {slot : Nat} (hne : slot ≠ entry.slot) :
    merged r.journal [entry] slot = Journal.get r.journal slot := by
  unfold merged entryAt
  rw [List.find?_cons_of_neg (by simpa using fun heq => hne heq.symm)]
  rfl

/-- Nothing is held behind the accepted frontier. -/
theorem get_next (hframe : (Journal.accepted r.journal).getD Slot.none = r.progress.accepted) :
    Journal.get r.journal (r.progress.accepted + 1) = none := by
  cases hget : Journal.get r.journal (r.progress.accepted + 1) with
  | none => rfl
  | some held =>
    obtain ⟨frontier, hfrontier, hle⟩ := LawfulJournal.get_le hget
    rw [hfrontier, Option.getD_some] at hframe
    omega

/-- **The fold over the arriving entry**: the fold of what is held, and the entry behind it where
the piggyback takes it in and the fold gets there. -/
theorem foldCommitted_next
    (hframe : (Journal.accepted r.journal).getD Slot.none = r.progress.accepted)
    (hnext : entry.slot = r.progress.accepted + 1)
    (hclient : ∃ id payload, entry.payload = .operation id payload) (piggybacked : Nat) :
    r.foldCommitted [entry] r.progress.committed (r.askedFrontier entry piggybacked) true =
      (r.foldCommitted [] r.progress.committed
        (max r.progress.committed (min piggybacked r.progress.accepted)) true).map fun folded =>
          if piggybacked ≤ r.progress.accepted ∨ folded.stopped = true then folded
          else { folded with covered := entry.slot } := by
  have hcommitted := r.progress.committed_le_accepted
  have harriving : ClientAt (merged r.journal [entry]) (r.progress.accepted + 1) := by
    obtain ⟨id, payload, hpayload⟩ := hclient
    refine ⟨entry, id, payload, ?_, hpayload⟩
    unfold merged entryAt
    rw [List.find?_cons_of_pos (by simpa using hnext)]
  have hnothing : NoSystemAt (merged r.journal []) (r.progress.accepted + 1) := by
    intro held op hheld
    rw [merged_nil, get_next hframe] at hheld
    cases hheld
  have hsame : ∀ slot ≤ r.progress.accepted,
      merged r.journal [entry] slot = merged r.journal [] slot :=
    fun slot hle => merged_arriving (by omega)
  have hfuel : ∀ overlay, r.progress.accepted < r.runFuel overlay := by
    intro overlay
    have hread : (Journal.accepted r.journal).getD 0 = r.progress.accepted := hframe
    unfold runFuel
    omega
  have hheld : ∀ through ≤ r.progress.accepted, foldRest (merged r.journal [entry])
      (r.runFuel [entry]) r.progress.current through true (r.folding r.progress.committed) =
      foldRest (merged r.journal []) (r.runFuel []) r.progress.current through true
        (r.folding r.progress.committed) :=
    fun through hthrough => foldRest_congr hsame harriving.noSystemAt hnothing (hfuel _) (hfuel _)
      hthrough _
  have heq : ∀ overlay through, r.foldCommitted overlay r.progress.committed through true =
      (foldRest (merged r.journal overlay) (r.runFuel overlay) r.progress.current through true
        (r.folding r.progress.committed)).map fun end_ =>
          { config := end_.table, covered := end_.covered, stopped := end_.stopped
            bump := end_.running.filter fun view => view != r.progress.current } :=
    fun overlay through => r.foldCommitted_eq overlay r.progress.committed through true
  rw [heq, heq]
  by_cases hbelow : piggybacked ≤ r.progress.accepted
  · rw [show r.askedFrontier entry piggybacked =
        max r.progress.committed (min piggybacked r.progress.accepted) by
      unfold askedFrontier
      omega, hheld _ (by omega)]
    cases foldRest (merged r.journal []) (r.runFuel []) r.progress.current
        (max r.progress.committed (min piggybacked r.progress.accepted)) true
        (r.folding r.progress.committed) with
    | error error => rfl
    | ok end_ => simp [Except.map, hbelow]
  · rw [show r.askedFrontier entry piggybacked = r.progress.accepted + 1 by
        unfold askedFrontier
        omega,
      show max r.progress.committed (min piggybacked r.progress.accepted) = r.progress.accepted by
        omega,
      foldRest_next harriving hcommitted rfl, hheld _ (Nat.le_refl _)]
    cases foldRest (merged r.journal []) (r.runFuel []) r.progress.current r.progress.accepted true
        (r.folding r.progress.committed) with
    | error error => rfl
    | ok end_ =>
      by_cases hstopped : end_.stopped = true
      · simp [Except.map, hstopped]
      · simp [Except.map, hstopped, hbelow, hnext]

omit [LawfulJournal J] in
/-- A commit that reads past what is held is refused. -/
theorem applyEffects_readable {start through : Nat} {effects : List Effect}
    (h : r.applyEffects start through = .ok effects) {slot : Nat} (hlow : start < slot)
    (hhigh : slot ≤ through) : ∃ held, Journal.get r.journal slot = some held := by
  unfold applyEffects at h
  generalize hleft : through - start = left at h
  rw [show merged r.journal [] = Journal.get r.journal from funext (merged_nil r.journal)] at h
  induction left generalizing start effects with
  | zero => omega
  | succ left ih =>
    unfold applyRange at h
    split at h
    · cases h
    · rename_i held hheld
      by_cases hat : slot = start + 1
      · exact ⟨held, hat ▸ hheld⟩
      · obtain ⟨rest, hrest, -⟩ := bind_eq_ok.mp h
        exact ih (by omega) (by omega) hrest

/-- The range of a prepare that the journal already holds, folded. -/
def foldHeld (r : Replica J) (piggybacked : Nat) : Except CommitFold FoldedCommit :=
  r.foldCommitted [] r.progress.committed
    (max r.progress.committed (min piggybacked r.progress.accepted)) true

omit [LawfulJournal J] in
/-- The held range is folded up to its end, or the era window stops it before. -/
theorem foldHeld_covered {piggybacked : Nat} {folded : FoldedCommit}
    (h : r.foldHeld piggybacked = .ok folded) :
    r.progress.committed ≤ folded.covered ∧ folded.covered ≤ r.progress.accepted ∧
      (folded.stopped = false →
        folded.covered = max r.progress.committed (min piggybacked r.progress.accepted)) := by
  obtain ⟨end_, hend, rfl⟩ := foldCommitted_ok h
  obtain ⟨hlow, hhigh⟩ := foldSlotsThrough_covers hend
  have hcommitted := r.progress.committed_le_accepted
  have hbound := hhigh (Nat.le_max_left _ _)
  refine ⟨hlow, hbound.trans (by omega), fun hstopped => ?_⟩
  have hrounds : max r.progress.committed (min piggybacked r.progress.accepted) -
      (r.folding r.progress.committed).covered ≤
      max r.progress.committed (min piggybacked r.progress.accepted) - r.progress.committed :=
    Nat.le_refl _
  have hcomplete := foldSlotsThrough_complete hrounds hend hstopped
  exact Nat.le_antisymm hbound hcomplete

/-- **Absorbed**, if the held range folds and the range does not take in the arriving entry. -/
theorem NextPrepare.absorbs (hr : r.Reached) {sender : Nat} {message : Message}
    (h : r.NextPrepare sender message entry) {piggybacked : Nat} {folded : FoldedCommit}
    (hrevision : r.progress.revision + 1 < u64Bound)
    (hheld : r.foldHeld piggybacked = .ok folded)
    (hrange : piggybacked ≤ r.progress.accepted ∨ folded.stopped = true) (kind : InputKind) :
    ∃ plan, r.planNextPrepare sender r.progress.current entry piggybacked .normal kind =
        .ok plan ∧ r.Absorbed sender entry piggybacked plan := by
  have hfold : r.foldCommitted [entry] r.progress.committed (r.askedFrontier entry piggybacked)
      true = .ok folded := by
    rw [foldCommitted_next h.framed h.next h.client, show r.foldCommitted [] _ _ true = .ok folded
      from hheld]
    simp [Except.map, hrange]
  obtain ⟨hlow, hhigh, hcovered⟩ := foldHeld_covered hheld
  have hnext := h.next
  have happlied := r.progress.applied_le_committed
  have hcheckpoint := r.progress.checkpoint_le_applied
  have hsame : ∀ slot ≤ r.progress.accepted,
      merged r.journal [entry] slot = Journal.get r.journal slot :=
    fun slot hle => merged_arriving (by omega)
  -- the stamp of the entry is behind the folded table
  have hera : ¬ (folded.covered < entry.slot ∧ folded.config.current.era < entry.era) := by
    obtain ⟨end_, hend, rfl⟩ := foldCommitted_ok hfold
    have hgrown : r.progress.config.current.era ≤ end_.table.current.era :=
      foldSlotsThrough_era_le hend hr.tabled.published
    rw [h.stamped]
    show ¬ (_ ∧ end_.table.current.era < _)
    omega
  have hrefusal : r.uncommittedRefusal folded.config folded.covered entry = .ok none := by
    obtain ⟨id, payload, hpayload⟩ := h.client
    unfold uncommittedRefusal
    rw [hpayload]
  obtain ⟨applied, hwalk⟩ : ∃ applied,
      r.appliedWalk [entry] r.progress.applied folded.covered = .ok applied := by
    refine systemWalk_total fun slot hbelow habove => ?_
    rw [hsame slot (by omega)]
    exact hr.readable h.framed (by omega) (by omega)
  have hwalked := systemWalk_walked hwalk
  have hmoved := hwalked.forward
  have hwithin := hwalked.within
  obtain ⟨candidate, hcandidate⟩ := candidateWith_folded hr h.serving hrevision hfold
    (show folded.covered ≤ entry.slot by omega) hmoved (by omega)
  have hreadable : ∀ slot, r.progress.committed < slot →
      slot ≤ r.progress.committed + (folded.covered - r.progress.committed) →
      ∃ held, merged r.journal [] slot = some held := by
    intro slot hbelow habove
    rw [merged_nil]
    exact hr.readable h.framed (by omega) (by omega)
  obtain ⟨applies, happlies, hmem⟩ := applyRange_total hreadable
  have hrecord := candidateWith_ok hcandidate
  refine ⟨r.candidatePlan candidate (.accept [entry])
    (prepareOk r.progress.current sender entry.slot :: applies) kind false, ?_, ?_⟩
  · unfold planNextPrepare
    simp only [show r.foldCommitted [entry] r.progress.committed
      (max r.progress.committed (min piggybacked entry.slot)) true = .ok folded from hfold]
    rw [hrefusal]
    show (if folded.covered < entry.slot ∧ folded.config.current.era < entry.era then _ else _) = _
    rw [if_neg hera, hwalk]
    show (r.candidateWith .normal entry.slot folded.covered applied folded.config folded.bump >>=
      _) = _
    rw [hcandidate]
    show (r.applyEffects r.progress.committed folded.covered >>= _) = _
    rw [show r.applyEffects r.progress.committed folded.covered = .ok applies from happlies]
    rfl
  · have hcommitted : candidate.committed = folded.covered := by rw [hrecord]; rfl
    refine ⟨rfl, rfl, List.mem_cons_self, ?_, ?_, ?_⟩
    · show candidate.accepted = entry.slot
      rw [hrecord]
      rfl
    · show candidate.committed = _ ∨ _
      rw [hcommitted]
      cases hstopped : folded.stopped with
      | true => exact .inr ⟨folded, hfold, hstopped, hcommitted⟩
      | false =>
        left
        rw [hcovered hstopped]
        rw [hstopped] at hrange
        have := hrange.resolve_right (by simp)
        unfold askedFrontier
        omega
    · intro slot held id payload hbelow habove hread hpayload
      have habove : slot ≤ folded.covered := hcommitted ▸ habove
      rw [hsame slot (by omega)] at hread
      exact List.mem_cons_of_mem _ (hmem slot held id payload hbelow (by omega)
        (by rwa [merged_nil]) hpayload)

/-- **Not absorbed**, if the range takes in the arriving entry: its effects are read from a journal
that does not hold it. -/
theorem NextPrepare.folds {sender : Nat} {message : Message}
    (h : r.NextPrepare sender message entry) {piggybacked : Nat} {kind : InputKind}
    {plan : PlannedTransition}
    (hplan : r.planNextPrepare sender r.progress.current entry piggybacked .normal kind = .ok plan)
    (habsorbed : r.Absorbed sender entry piggybacked plan) :
    r.progress.revision + 1 < u64Bound ∧ ∃ folded, r.foldHeld piggybacked = .ok folded ∧
      (piggybacked ≤ r.progress.accepted ∨ folded.stopped = true) := by
  have hjournal := habsorbed.journal
  have hdrop : ∀ diagnostic, r.dropPlan diagnostic kind ≠ .ok plan := by
    intro diagnostic hdrop
    obtain ⟨candidate, -, rfl⟩ := dropPlan_ok hdrop
    cases hjournal
  unfold planNextPrepare at hplan
  simp only [show r.foldCommitted [entry] r.progress.committed
    (max r.progress.committed (min piggybacked entry.slot)) true = _ from
      foldCommitted_next h.framed h.next h.client piggybacked] at hplan
  cases hheld : r.foldHeld piggybacked with
  | error error =>
    rw [show r.foldCommitted [] r.progress.committed
      (max r.progress.committed (min piggybacked r.progress.accepted)) true = .error error
      from hheld] at hplan
    cases error with
    | unavailable slot => cases hplan
    | splitBatch => exact (hdrop _ hplan).elim
    | breach slot error =>
      simp only [Except.map] at hplan
      split at hplan
      · exact (hdrop _ hplan).elim
      · obtain ⟨candidate, -, rfl⟩ := breachPlan_ok hplan
        cases hjournal
  | ok folded =>
    rw [show r.foldCommitted [] r.progress.committed
      (max r.progress.committed (min piggybacked r.progress.accepted)) true = .ok folded
      from hheld] at hplan
    simp only [Except.map] at hplan
    generalize hend : (if piggybacked ≤ r.progress.accepted ∨ folded.stopped = true then folded
      else { folded with covered := entry.slot }) = end_ at hplan
    obtain ⟨refusal, hrefusal, hplan⟩ := bind_eq_ok.mp hplan
    split at hplan
    · exact (hdrop _ hplan).elim
    · split at hplan
      · exact (hdrop _ hplan).elim
      · obtain ⟨applied, -, hplan⟩ := bind_eq_ok.mp hplan
        obtain ⟨candidate, hcandidate, hplan⟩ := bind_eq_ok.mp hplan
        obtain ⟨applies, happlies, -⟩ := bind_eq_ok.mp hplan
        refine ⟨?_, folded, rfl, ?_⟩
        · exact nextRecord_room hcandidate
        · by_contra hreached
          rw [if_neg hreached] at hend
          rw [← hend] at happlies
          have hcommitted := r.progress.committed_le_accepted
          have hnext := h.next
          obtain ⟨held, hget⟩ := applyEffects_readable happlies
            (show r.progress.committed < entry.slot by omega) (Nat.le_refl _)
          rw [hnext, get_next h.framed] at hget
          cases hget

end Next

/-- **When the next prepare is absorbed**: the range that its piggyback newly covers folds as far as
the journal holds it, and does not go on to the arriving entry. -/
theorem absorbs_iff (hr : r.Reached) {sender : Nat} {message : Message} {entry : LogEntry}
    (h : r.NextPrepare sender message entry) (piggybacked time : Nat) (kind : InputKind) :
    (∃ plan, r.planPrepare sender message entry piggybacked time kind = .ok plan ∧
        r.Absorbed sender entry piggybacked plan) ↔
      r.progress.revision + 1 < u64Bound ∧ ∃ folded, r.foldHeld piggybacked = .ok folded ∧
        (piggybacked ≤ r.progress.accepted ∨ folded.stopped = true) := by
  rw [h.planPrepare hr piggybacked time kind]
  constructor
  · rintro ⟨plan, hplan, habsorbed⟩
    exact h.folds hplan habsorbed
  · rintro ⟨hrevision, folded, hheld, hrange⟩
    exact h.absorbs hr hrevision hheld hrange kind

/-! ### A backup behind by one operation -/

/-- The prepare of the fourth slot with the frontier it carries. -/
def prepareFourth (piggybacked : Nat) : Message where
  header := { view := { era := 1, view := 0 }, slot := 4 }
  body := .prepare (clientEntry 4) piggybacked

theorem preparedThird_reached {r : Replica SegmentedLog} (h : preparedThird = some r) :
    r.Reached := by
  obtain ⟨fresh, hfresh, rfl⟩ := Option.map_eq_some_iff.mp h
  exact (Reached.provision (toOption_eq_some hfresh)).step _

theorem preparedThird_next {r : Replica SegmentedLog} (h : preparedThird = some r)
    (piggybacked : Nat) : r.NextPrepare 1 (prepareFourth piggybacked) (clientEntry 4) := by
  have hstate : (preparedThird.map fun r => decide (
      (Journal.accepted r.journal).getD Slot.none = r.progress.accepted ∧
      r.progress.status = .normal ∧ r.progress.current = { era := 1, view := 0 } ∧
      r.primaryOf r.progress.current = some 1 ∧ r.progress.accepted = 3 ∧
      r.progress.config.current.era = 1)) = some true := by decide +kernel
  rw [h] at hstate
  obtain ⟨hframed, hserving, hcurrent, hprimary, haccepted, hera⟩ :=
    of_decide_eq_true (Option.some.inj hstate)
  exact ⟨hframed, hserving, hcurrent.symm, hprimary, rfl, by rw [haccepted]; rfl, by decide,
    ⟨_, _, rfl⟩, hera.symm⟩

/-- A commit that stays behind the arriving slot is absorbed. -/
theorem preparedThird_absorbs : ∃ (r : Replica SegmentedLog) (plan : PlannedTransition),
    r.Reached ∧ r.planPrepare 1 (prepareFourth 3) (clientEntry 4) 3 1 (.peerMessage .prepare 4) =
      .ok plan ∧ r.Absorbed 1 (clientEntry 4) 3 plan := by
  have hstate : (preparedThird.map fun r => decide (r.progress.accepted = 3 ∧
      r.progress.revision + 1 < u64Bound ∧ (r.foldHeld 3).toOption.isSome = true)) =
        some true := by decide +kernel
  obtain ⟨r, hr, hstate⟩ := Option.map_eq_some_iff.mp hstate
  obtain ⟨haccepted, hrevision, hfolds⟩ := of_decide_eq_true hstate
  obtain ⟨folded, hfolded⟩ := Option.isSome_iff_exists.mp hfolds
  have hreached := preparedThird_reached hr
  obtain ⟨plan, hplan, habsorbed⟩ :=
    (absorbs_iff hreached (preparedThird_next hr 3) 3 1 (.peerMessage .prepare 4)).mpr
      ⟨hrevision, folded, toOption_eq_some hfolded, .inl haccepted.ge⟩
  exact ⟨r, plan, hreached, hplan, habsorbed⟩

/-- **The primary has committed the operation it sends**: the backup refuses the prepare. -/
theorem preparedThird_refuses : ¬ ∀ (r : Replica SegmentedLog) (sender : Nat) (message : Message)
    (entry : LogEntry) (piggybacked time : Nat) (kind : InputKind), r.Reached →
      r.NextPrepare sender message entry →
      ∃ plan, r.planPrepare sender message entry piggybacked time kind = .ok plan ∧
        r.Absorbed sender entry piggybacked plan := by
  intro hall
  have hrefused : (preparedThird.map fun r => (r.planPrepare 1 (prepareFourth 4) (clientEntry 4) 4 1
      (.peerMessage .prepare 4)).toOption.isNone) = some true := by decide +kernel
  obtain ⟨r, hr, hrefused⟩ := Option.map_eq_some_iff.mp hrefused
  obtain ⟨plan, hplan, -⟩ := hall r 1 (prepareFourth 4) (clientEntry 4) 4 1
    (.peerMessage .prepare 4) (preparedThird_reached hr) (preparedThird_next hr 4)
  rw [hplan] at hrefused
  cases hrefused

end Replica

end UvrrCore
