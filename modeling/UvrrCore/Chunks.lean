import UvrrCore.FusedJump
import UvrrCore.Promise.Handlers
import UvrrCore.Tables

/-!
# Served chunks

A replica is asked for a range of its journal in two ways: by a fetch, which it answers up to its
accepted frontier, and by an announcement or a gossip request, which a leader answers up to its
committed one. Either way a chunk is packed within the byte budget, and its receiver checks the
shape again before it looks at anything else.

* `Serves`: what a chunk says about the journal it was packed from, and the receiver's guards.
* `Asked`: the inputs that ask for a range.
* `serves_of_asked`: every chunk sent is well formed, and one is sent if there is anything to send.
-/

namespace UvrrCore

/-! ### Packing -/

/-- The bytes of a run of entries. -/
def packedTotal (entries : List LogEntry) : Nat := (entries.map LogEntry.packedLen).sum

@[simp] theorem packedTotal_nil : packedTotal [] = 0 := rfl

@[simp] theorem packedTotal_cons (entry : LogEntry) (rest : List LogEntry) :
    packedTotal (entry :: rest) = entry.packedLen + packedTotal rest := by
  simp [packedTotal]

section Packing

variable {J : Type} [Journal J]

theorem packChunk_length (journal : J) (budget left slot bytes : Nat) :
    (packChunk journal budget left slot bytes).length ≤ left := by
  induction left generalizing slot bytes with
  | zero => exact Nat.le_refl _
  | succ left ih =>
    unfold packChunk
    split
    · exact Nat.zero_le _
    · split
      · exact Nat.zero_le _
      · exact Nat.succ_le_succ (ih _ _)

/-- The chunk stays within the budget. -/
theorem packChunk_fits (journal : J) (budget left slot bytes : Nat) (hbytes : bytes ≤ budget) :
    bytes + packedTotal (packChunk journal budget left slot bytes) ≤ budget := by
  induction left generalizing slot bytes with
  | zero => exact hbytes
  | succ left ih =>
    unfold packChunk
    split
    · exact hbytes
    · rename_i entry _
      split
      · exact hbytes
      · rename_i hfits
        have := ih (slot + 1) (bytes + entry.packedLen) (by omega)
        rw [packedTotal_cons]
        omega

/-- The chunk is full: the next entry is too much, or past the last slot asked for. -/
theorem packChunk_full (journal : J) (budget left slot bytes : Nat) {next : LogEntry}
    (hnext : Journal.get journal
      (slot + (packChunk journal budget left slot bytes).length) = some next) :
    budget < bytes + packedTotal (packChunk journal budget left slot bytes) + next.packedLen ∨
      left ≤ (packChunk journal budget left slot bytes).length := by
  induction left generalizing slot bytes with
  | zero => exact .inr (Nat.zero_le _)
  | succ left ih =>
    unfold packChunk at hnext ⊢
    split at hnext
    · rename_i hnone
      rw [List.length_nil, Nat.add_zero, hnone] at hnext
      cases hnext
    · rename_i entry hget
      split at hnext
      · rename_i hover
        rw [List.length_nil, Nat.add_zero, hget] at hnext
        cases hnext
        rw [if_pos hover]
        exact .inl hover
      · rename_i hfits
        rw [if_neg hfits, packedTotal_cons, List.length_cons]
        rw [List.length_cons, show ∀ n, slot + (n + 1) = slot + 1 + n by intro n; omega] at hnext
        rcases ih (slot + 1) (bytes + entry.packedLen) hnext with hover | hlast
        · exact .inl (by omega)
        · exact .inr (Nat.succ_le_succ hlast)

/-- A chunk is packed where its first entry fits. -/
theorem packChunk_ne_nil {journal : J} {budget left slot : Nat} {entry : LogEntry}
    (hget : Journal.get journal slot = some entry) (hleft : 0 < left)
    (hfits : entry.packedLen ≤ budget) : packChunk journal budget left slot 0 ≠ [] := by
  obtain ⟨left, rfl⟩ := Nat.exists_eq_add_of_lt hleft
  rw [Nat.zero_add, packChunk, hget]
  simp only
  rw [if_neg (by omega)]
  exact List.cons_ne_nil _ _

end Packing

/-- A run of entries passes the shape check, unless it begins at no slot at all. -/
theorem suffixShapeOk_of_run {start accepted : Nat} {entries : List LogEntry}
    (hrun : ContiguousFrom start entries) (hstart : start ≠ Slot.none) {last : LogEntry}
    (hlast : entries.getLast? = some last) (hend : last.slot = accepted) :
    suffixShapeOk entries accepted = true := by
  have hgo : ∀ (rest : List LogEntry) (slot : Nat) (expected : Option Nat),
      ContiguousFrom slot rest → slot ≠ Slot.none → expected = some slot ∨ expected = none →
      suffixShapeOk.go entries accepted expected rest = true := by
    intro rest
    induction rest with
    | nil =>
      intro slot expected _ _ _
      unfold suffixShapeOk.go
      rw [hlast]
      simpa using hend
    | cons entry rest ih =>
      intro slot expected hrest hslot hexpected
      obtain ⟨hentry, hlater⟩ := hrest
      have hnext : Slot.next slot = some (slot + 1) ∨ Slot.next slot = none := by
        unfold Slot.next
        split
        · exact .inl rfl
        · exact .inr rfl
      have hmore := ih (slot + 1) (Slot.next slot) hlater (Nat.succ_ne_zero slot) hnext
      unfold suffixShapeOk.go
      rcases hexpected with rfl | rfl
      · simp [hentry, hmore]
      · simp [hentry, hslot, hmore]
  exact hgo entries start none hrun hstart (.inr rfl)

namespace Replica

variable {J : Type} [Journal J] [LawfulJournal J] {r : Replica J}

/-! ### The journal of a reachable replica -/

/-- A journal with a frontier and nothing at slot zero. -/
structure Founded (journal : J) : Prop where
  frontier : (Journal.accepted journal).isSome
  void : Journal.get journal Slot.none = none

theorem Founded.mutate {journal journal' : J} (h : Founded journal) {mutation : JournalMutation}
    (hjournal : mutateJournal journal mutation = .ok journal') : Founded journal' := by
  obtain ⟨frontier, hfrontier⟩ := Option.isSome_iff_exists.mp h.frontier
  cases mutation with
  | none =>
    cases hjournal
    exact h
  | accept entries =>
    cases entries with
    | nil =>
      have hsame : Journal.accept journal [] = .ok journal' := hjournal
      rw [LawfulJournal.accept_nil] at hsame
      cases hsame
      exact h
    | cons entry rest =>
      obtain ⟨-, haccepted, -, hget⟩ := LawfulJournal.accept_ok hfrontier hjournal
      refine ⟨by rw [haccepted]; rfl, ?_⟩
      rw [hget, if_pos (Nat.zero_le _)]
      exact h.void
  | installSuffix cut suffix =>
    obtain ⟨hlow, -, -, haccepted, -, hget⟩ := LawfulJournal.installSuffix_ok hfrontier hjournal
    refine ⟨by rw [haccepted]; rfl, ?_⟩
    -- the journal is not cut at slot zero, since it would hold that slot
    have hpos : 0 < (Journal.retained journal).1 := by
      by_contra hzero
      have hsome : (Journal.get journal Slot.none).isSome :=
        LawfulJournal.get_isSome hfrontier (Nat.le_of_not_lt hzero) (Nat.zero_le _)
      rw [h.void] at hsome
      cases hsome
    rw [hget, if_pos (show Slot.none < min cut (frontier + 1) by
      show 0 < _
      omega)]
    exact h.void

/-- A reachable replica keeps the genesis entries or what came after them. -/
theorem Reached.founded (hr : r.Reached) : Founded r.journal := by
  induction hr with
  | provision h =>
    obtain ⟨table, journal', progress, -, hempty, hinstall, -, rfl⟩ := provision_data h
    obtain ⟨-, hrun, haccepted, -, hget⟩ := LawfulJournal.installSuffix_fresh hempty hinstall
    refine ⟨by show (Journal.accepted journal').isSome; rw [haccepted]; rfl, ?_⟩
    show Journal.get journal' Slot.none = none
    rw [hget, hrun.entryAt_eq, if_pos (show Slot.none < voidSlot by decide)]
  | @step r hr input ih =>
    have houtcome := step_outcome r input
    generalize r.step input = out at houtcome
    cases houtcome with
    | refused => exact ih
    | faulted fault =>
      rw [show ((r.faultNode fault, ([] : List Effect))).1.journal = r.journal from
        faultNode_journal r fault]
      exact ih
    | diverged plan hplan hlegal =>
      show Founded (faultNode _ _).journal
      rw [faultNode_journal]
      exact ih
    | parked plan hplan hfresh hstability hnone => exact ih
    | published plan journal hplan hbase hfault hlegal hjournal => exact ih.mutate hjournal
  | @reclaim r hr journal h ih =>
    refine ⟨h.accepted ▸ ih.frontier, ?_⟩
    show Journal.get journal Slot.none = none
    cases hget : Journal.get journal Slot.none with
    | none => rfl
    | some entry =>
      have hheld := h.held _ _ hget
      rw [ih.void] at hheld
      cases hheld
  | reopen hr h ih =>
    obtain ⟨progress, -, rfl⟩ := reopenFenced_data h
    exact ih
  | witnesses hr witnesses ih => exact ih

/-! ### Chunks -/

/-- **A served chunk**: a run of the journal from the slot asked for, as long as the budget and the
frontier let it be, in a shape its receiver takes. -/
structure ServesRun (r : Replica J) (start frontier : Nat) (message : Message)
    (entries : List LogEntry) (through committed : Nat) (more : Bool) : Prop where
  body : message.body = .newState entries through committed more
  run : ContiguousFrom start entries
  held : ∀ entry ∈ entries, Journal.get r.journal entry.slot = some entry
  fits : packedTotal entries ≤ r.knobs.viewChangeBudget
  /-- The next entry would be too much, or is past the frontier. -/
  full : ∀ next, Journal.get r.journal (through + 1) = some next →
    r.knobs.viewChangeBudget < packedTotal entries + next.packedLen ∨ frontier < through + 1
  /-- The guards of the receiver. -/
  formed : ¬(message.header.slot ≠ through ∨ (more = false ∧ through < committed) ∨
    suffixShapeOk entries through = false ∨ (entries = [] ∧ more = true))
  more : more = true ↔ through < frontier

def Serves (r : Replica J) (start frontier : Nat) (message : Message) : Prop :=
  ∃ entries through committed more,
    r.ServesRun start frontier message entries through committed more

/-- **A packed chunk is served well.** -/
theorem serves_packed (hfounded : Founded r.journal) (view : Ballot)
    {start frontier committed : Nat} {last : LogEntry} (hcommitted : committed ≤ frontier)
    (hlast : (packChunk r.journal r.knobs.viewChangeBudget (frontier + 1 - start) start 0).getLast? =
      some last) :
    r.Serves start frontier
      { header := { view := view, slot := last.slot }
        body := .newState
          (packChunk r.journal r.knobs.viewChangeBudget (frontier + 1 - start) start 0) last.slot
          committed (decide (last.slot < frontier)) } := by
  have hlength := packChunk_length r.journal r.knobs.viewChangeBudget (frontier + 1 - start) start 0
  have hfits := packChunk_fits r.journal r.knobs.viewChangeBudget (frontier + 1 - start) start 0
    (Nat.zero_le _)
  have hfull := @packChunk_full J _ r.journal r.knobs.viewChangeBudget (frontier + 1 - start) start 0
  obtain ⟨hrun, hheld⟩ :=
    packChunk_held r.journal r.knobs.viewChangeBudget (frontier + 1 - start) start 0
  generalize packChunk r.journal r.knobs.viewChangeBudget (frontier + 1 - start) start 0 = entries
    at hlast hlength hfits hfull hrun hheld
  have hend := hrun.getLast?_slot hlast
  have hmem := List.mem_of_getLast? hlast
  have hpos := List.length_pos_of_mem hmem
  have hstart : start ≠ Slot.none := by
    rintro rfl
    cases entries with
    | nil => cases hmem
    | cons entry rest =>
      have hheld := hheld entry List.mem_cons_self
      rw [hrun.1, hfounded.void] at hheld
      cases hheld
  refine ⟨entries, last.slot, committed, decide (last.slot < frontier), rfl, hrun, hheld,
    by omega, ?_, ?_, decide_eq_true_iff⟩
  · intro next hnext
    rw [hend] at hnext
    rcases hfull hnext with hover | hdone
    · exact .inl (by omega)
    · exact .inr (by omega)
  · rw [not_or, not_or, not_or, decide_eq_false_iff_not, decide_eq_true_iff]
    refine ⟨not_not.mpr rfl, by omega, ?_, ?_⟩
    · rw [suffixShapeOk_of_run hrun hstart hlast rfl]
      exact Bool.noConfusion
    · rintro ⟨rfl, -⟩
      cases hmem

/-- **The inputs that ask for a range**: who gets it, under which view, from which slot on, and up
to which frontier. -/
inductive Asked (r : Replica J) (input : TimedInput) :
    (recipient : Nat) → (view : Ballot) → (start frontier : Nat) → Prop
  | fetched {sender : Nat} {message : Message} {start : Nat}
      (hevent : input.event = .peer sender message)
      (hforeign : r.foreignSender sender message = false)
      (hbody : message.body = .getState start)
      (hmember : r.memberThen message.header.view sender = true ∨
        (r.committedWeight sender).isSome = true)
      (hserving : r.progress.status = .normal ∨ r.progress.status = .viewChange) :
      Asked r input sender message.header.view start r.progress.accepted
  | gossiped {sender : Nat} {message : Message} {prepared committed start : Nat}
      (hevent : input.event = .peer sender message)
      (hbody : message.body = .gossipRequest prepared committed) (hleads : r.isLeader = true)
      (hstart : Slot.next prepared = some start) :
      Asked r input sender message.header.view start r.progress.committed
  | announced {sender : Nat} {message : Message} {old prepared committed start : Nat}
      (hevent : input.event = .peer sender message)
      (hbody : message.body = .reincarnation old sender committed prepared)
      (hother : old ≠ sender) (hleads : r.isLeader = true)
      (hstart : Slot.next prepared = some start) :
      Asked r input sender message.header.view start r.progress.committed
  | returned {old start : Nat} (hevent : input.event = .reincarnate old)
      (hleads : r.isLeader = true)
      (hstart : Slot.next ((Journal.accepted r.journal).getD Slot.none) = some start) :
      Asked r input r.own r.progress.current start r.progress.committed

/-- **What answers a request for a range**: every chunk among the effects is served well, and there
is one where the first entry of the range is there and fits. -/
structure Answers (r : Replica J) (recipient : Nat) (view : Ballot) (start frontier : Nat)
    (effects : List Effect) : Prop where
  formed : ∀ node era message, Effect.send node era message ∈ effects → message.tag = .newState →
    node = recipient ∧ era = view.era ∧ r.Serves start frontier message
  sent : start ≤ frontier → ∀ entry, Journal.get r.journal start = some entry →
    entry.packedLen ≤ r.knobs.viewChangeBudget →
    ∃ message, Effect.send recipient view.era message ∈ effects ∧ r.Serves start frontier message

/-- Effects without a chunk. -/
def Chunkless (effects : List Effect) : Prop :=
  ∀ node era message, Effect.send node era message ∈ effects → message.tag ≠ .newState

section Answers

variable {recipient start frontier : Nat} {view : Ballot} {effects before after : List Effect}

omit [LawfulJournal J] in
theorem Answers.around (h : r.Answers recipient view start frontier effects)
    (hbefore : Chunkless before) (hafter : Chunkless after) :
    r.Answers recipient view start frontier (before ++ effects ++ after) := by
  refine ⟨fun node era message hmem htag => ?_, fun hle entry hget hfits => ?_⟩
  · rcases List.mem_append.mp hmem with hmem | hmem
    · rcases List.mem_append.mp hmem with hmem | hmem
      · exact absurd htag (hbefore node era message hmem)
      · exact h.formed node era message hmem htag
    · exact absurd htag (hafter node era message hmem)
  · obtain ⟨message, hmem, hserves⟩ := h.sent hle entry hget hfits
    exact ⟨message, List.mem_append_left _ (List.mem_append_right _ hmem), hserves⟩

/-- The chunk packed for a range, or nothing where none could be. -/
theorem answers_packed (hfounded : Founded r.journal) {committed : Nat}
    (hcommitted : committed ≤ frontier) {effects : List Effect}
    (heffects : effects =
      match (packChunk r.journal r.knobs.viewChangeBudget (frontier + 1 - start) start 0).getLast? with
      | none => []
      | some last =>
        [.send recipient view.era
          { header := { view := view, slot := last.slot }
            body := .newState
              (packChunk r.journal r.knobs.viewChangeBudget (frontier + 1 - start) start 0)
              last.slot committed (decide (last.slot < frontier)) }]) :
    r.Answers recipient view start frontier effects := by
  cases hlast : (packChunk r.journal r.knobs.viewChangeBudget (frontier + 1 - start) start
      0).getLast? with
  | none =>
    rw [hlast] at heffects
    subst heffects
    refine ⟨fun node era message hmem _ => (by cases hmem), fun hle entry hget hfits => ?_⟩
    rw [List.getLast?_eq_none_iff] at hlast
    exact absurd hlast (packChunk_ne_nil hget (by omega) hfits)
  | some last =>
    rw [hlast] at heffects
    subst heffects
    have hserves := serves_packed hfounded view hcommitted hlast
    refine ⟨fun node era message hmem _ => ?_, fun _ _ _ _ => ⟨_, List.mem_singleton_self _, hserves⟩⟩
    cases List.mem_singleton.mp hmem
    exact ⟨rfl, rfl, hserves⟩

/-- What a leader pushes of a missed range. -/
theorem answers_push (hfounded : Founded r.journal) {prepared : Nat}
    (hstart : Slot.next prepared = some start) :
    r.Answers recipient view start r.progress.committed
      (r.missedRangePush view recipient prepared).toList := by
  refine answers_packed hfounded (Nat.le_refl _) ?_
  unfold missedRangePush
  simp only [hstart]
  cases (packChunk r.journal r.knobs.viewChangeBudget (r.progress.committed + 1 - start) start
    0).getLast? with
  | none => rfl
  | some last => rfl

end Answers

/-! ### Plans that serve -/

omit [LawfulJournal J] in
theorem chunkless_sendAll {recipients : List Nat} {era : Nat} {message : Message}
    (htag : message.tag ≠ .newState) : Chunkless (sendAll recipients era message) := by
  intro node era' message' hmem
  obtain ⟨recipient, -, heq⟩ := mem_sendAll hmem
  cases heq
  exact htag

omit [LawfulJournal J] in
theorem chunkless_nil : Chunkless [] := by
  intro node era message hmem
  cases hmem

omit [LawfulJournal J] in
/-- A proposal sends no chunk, and the copy of its announcement is none. -/
theorem planReconfigure_chunkless {op : SystemOperation} {pivot : Option Pivot}
    {plan : PlannedTransition} (h : r.planReconfigure op pivot = .ok plan) :
    Chunkless plan.effects := by
  obtain ⟨record, -, h⟩ := bind_eq_ok.mp h
  obtain ⟨slot, -, h⟩ := bind_eq_ok.mp h
  obtain ⟨table, -, h⟩ := bind_eq_ok.mp h
  obtain ⟨⟨recipients, planned⟩, -, h⟩ := bind_eq_ok.mp h
  obtain ⟨candidate, -, h⟩ := bind_eq_ok.mp h
  cases pure_eq_ok.mp h
  exact chunkless_sendAll (by intro htag; cases htag)

omit [LawfulJournal J] in
theorem chunkless_copy {effects : List Effect} (h : Chunkless effects) (recipient era : Nat) :
    Chunkless ((establishingPrepare effects).map fun establishing =>
      Effect.send recipient era establishing).toList := by
  intro node era' message hmem
  rw [Option.mem_toList, Option.map_eq_some_iff] at hmem
  obtain ⟨establishing, hestablishing, heq⟩ := hmem
  cases heq
  obtain ⟨other, era'', hin⟩ := establishingPrepare_mem hestablishing
  exact h other era'' message hin

variable {sender : Nat} {message : Message} {kind : InputKind} {plan : PlannedTransition}

theorem planGetState_answers (hfounded : Founded r.journal) {start : Nat}
    (hmember : r.memberThen message.header.view sender = true ∨
      (r.committedWeight sender).isSome = true)
    (hserving : r.progress.status = .normal ∨ r.progress.status = .viewChange)
    (h : r.planGetState sender message start kind = .ok plan) :
    r.Answers sender message.header.view start r.progress.accepted plan.effects := by
  refine answers_packed hfounded r.progress.committed_le_accepted ?_
  have hserved : (match (r.servedChunk start).getLast? with
      | none => r.dropPlan (.transferNotServed sender message.header.view) kind
      | some last =>
        r.emitPlan
          [.send sender message.header.view.era
            { header := { view := message.header.view, slot := last.slot }
              body := .newState (r.servedChunk start) last.slot r.progress.committed
                (decide (last.slot < r.progress.accepted)) }]
          kind) = .ok plan := by
    simp only [planGetState] at h
    rw [if_neg] at h
    · rcases hserving with hserving | hserving
      · rwa [hserving] at h
      · rwa [hserving] at h
    · rcases hmember with hmember | hmember
      · simp [hmember]
      · simp [Option.isSome_iff_ne_none.mp hmember]
  show plan.effects =
    match (r.servedChunk start).getLast? with
    | none => []
    | some last => _
  cases hlast : (r.servedChunk start).getLast? with
  | none =>
    rw [hlast] at hserved
    obtain ⟨candidate, -, rfl⟩ := dropPlan_ok hserved
    rfl
  | some last =>
    rw [hlast] at hserved
    obtain ⟨candidate, -, rfl⟩ := emitPlan_ok hserved
    rfl

theorem planGossipRequest_answers (hfounded : Founded r.journal) {prepared committed start : Nat}
    (hbody : message.body = .gossipRequest prepared committed) (hleads : r.isLeader = true)
    (hstart : Slot.next prepared = some start)
    (h : r.planGossipRequest sender message kind = .ok plan) :
    r.Answers sender message.header.view start r.progress.committed plan.effects := by
  simp only [planGossipRequest, hbody, hleads] at h
  obtain ⟨drop, hdrop, h⟩ := bind_eq_ok.mp h
  cases pure_eq_ok.mp h
  obtain ⟨candidate, -, rfl⟩ := dropPlan_ok hdrop
  refine (answers_push hfounded hstart).around chunkless_nil ?_
  intro node era message' hmem htag
  cases List.mem_singleton.mp hmem
  cases htag

theorem planReincarnation_answers (hfounded : Founded r.journal)
    {old prepared committed start : Nat}
    (hbody : message.body = .reincarnation old sender committed prepared)
    (hstart : Slot.next prepared = some start) (hother : old ≠ sender) (hleads : r.isLeader = true)
    (h : r.planReincarnation sender message kind = .ok plan) :
    r.Answers sender message.header.view start r.progress.committed plan.effects := by
  have hpush : r.Answers sender message.header.view start r.progress.committed
      (r.missedRangePush message.header.view sender prepared).toList :=
    answers_push hfounded hstart
  simp only [planReincarnation, hbody] at h
  rw [if_neg (by simp [hleads, hother])] at h
  split at h
  · cases h
  · split at h
    · obtain ⟨drop, hdrop, h⟩ := bind_eq_ok.mp h
      cases pure_eq_ok.mp h
      obtain ⟨candidate, -, rfl⟩ := dropPlan_ok hdrop
      have := hpush.around chunkless_nil chunkless_nil
      rwa [List.append_nil] at this
    · split at h
      · obtain ⟨proposal, hproposal, h⟩ := bind_eq_ok.mp h
        cases pure_eq_ok.mp h
        have hchunkless := planReconfigure_chunkless hproposal
        exact (hpush.around chunkless_nil hchunkless).around chunkless_nil
          (chunkless_copy hchunkless _ _)
      · obtain ⟨drop, hdrop, h⟩ := bind_eq_ok.mp h
        cases pure_eq_ok.mp h
        obtain ⟨candidate, -, rfl⟩ := dropPlan_ok hdrop
        have := hpush.around chunkless_nil chunkless_nil
        rwa [List.append_nil] at this

/-- A leader that announces itself has missed nothing. -/
theorem planReincarnate_answers (hfounded : Founded r.journal) {old start : Nat}
    (hframe : (Journal.accepted r.journal).getD Slot.none = r.progress.accepted)
    (hleads : r.isLeader = true)
    (hstart : Slot.next ((Journal.accepted r.journal).getD Slot.none) = some start)
    (h : r.planReincarnate old kind = .ok plan) :
    r.Answers r.own r.progress.current start r.progress.committed plan.effects := by
  have hmissed : r.progress.committed < start := by
    have := r.progress.committed_le_accepted
    rw [hframe] at hstart
    have := (Slot.next_eq_some.mp hstart).2
    omega
  rcases planReincarnate_ok h with hdrop | ⟨announcement, hview, hbody, hold, ⟨-, hled⟩ | ⟨hbackup, -⟩⟩
  · obtain ⟨candidate, -, rfl⟩ := dropPlan_ok hdrop
    refine ⟨fun node era message hmem _ => (by cases hmem), fun hle => ?_⟩
    omega
  · rw [← hview]
    exact planReincarnation_answers hfounded hbody hstart hold hleads hled
  · rw [hleads] at hbackup
    cases hbackup

/-- **Every chunk a reachable replica is asked for is well formed**, and one is sent where the first
entry of the range is there and fits. -/
theorem serves_of_asked (hr : r.Reached) {input : TimedInput} {recipient start frontier : Nat}
    {view : Ballot} (hasked : r.Asked input recipient view start frontier)
    (hplan : r.plan input = .ok plan) :
    r.Answers recipient view start frontier plan.effects := by
  have hfounded := hr.founded
  have hhandled : ∀ sender message, input.event = .peer sender message →
      r.foreignSender sender message = false →
      (∀ handled, r.planBody sender message input.time input.event.kind = .ok handled →
        r.Answers recipient view start frontier handled.effects) →
      r.Answers recipient view start frontier plan.effects := by
    intro sender message hevent hforeign hbody
    obtain ⟨handled, hhandled, heq⟩ := plan_peerBody hevent hforeign hplan
    have heffects : plan.effects = handled.effects := by
      rcases heq with rfl | rfl <;> rfl
    rw [heffects]
    exact hbody handled hhandled
  have hwitness : ∀ (handled : PlannedTransition) (node : Nat),
      (r.withJoinGossipWitness handled node).effects = handled.effects := by
    intro handled node
    unfold withJoinGossipWitness
    split <;> rfl
  cases hasked with
  | fetched hevent hforeign hbody hmember hserving =>
    refine hhandled _ _ hevent hforeign fun handled h => ?_
    unfold planBody at h
    rw [hbody] at h
    exact planGetState_answers hfounded hmember hserving h
  | gossiped hevent hbody hleads hstart =>
    refine hhandled _ _ hevent (by simp [foreignSender, Message.tag, hbody, Body.tag])
      fun handled h => ?_
    unfold planBody at h
    rw [hbody] at h
    obtain ⟨inner, hinner, h⟩ := bind_eq_ok.mp h
    cases pure_eq_ok.mp h
    rw [hwitness]
    exact planGossipRequest_answers hfounded hbody hleads hstart hinner
  | announced hevent hbody hother hleads hstart =>
    refine hhandled _ _ hevent (by simp [foreignSender, Message.tag, hbody, Body.tag])
      fun handled h => ?_
    unfold planBody at h
    rw [hbody] at h
    obtain ⟨inner, hinner, h⟩ := bind_eq_ok.mp h
    cases pure_eq_ok.mp h
    rw [hwitness]
    exact planReincarnation_answers hfounded hbody hstart hother hleads hinner
  | @returned old start hevent hleads hstart =>
    have hreincarnate : r.planReincarnate old input.event.kind = .ok plan := by
      have h := hplan
      unfold Replica.plan at h
      split at h
      · cases h
      · simp only at h
        split at h
        · cases h
        · rw [hevent] at h ⊢
          exact (refuseIfParked_ok h).2
    exact planReincarnate_answers hfounded (plan_gate hplan).2 hleads hstart hreincarnate

/-- The backup answers a fetch of all it accepted beyond the genesis. -/
theorem backup_answers : ∃ (r : Replica SegmentedLog) (plan : PlannedTransition),
    r.Reached ∧ r.plan (fromPrimary 2 (.getState 3)) = .ok plan ∧ plan.effects.length = 1 ∧
    r.Answers 1 { era := 1, view := 0 } 3 r.progress.accepted plan.effects := by
  have hplanned : (backup.map fun r => decide (r.progress.status = .normal ∧
      r.foreignSender 1 { header := { view := { era := 1, view := 0 }, slot := 2 }
                          body := .getState 3 } = false ∧
      r.memberThen { era := 1, view := 0 } 1 = true ∧
      ((r.plan (fromPrimary 2 (.getState 3))).map fun plan => plan.effects.length).toOption =
        some 1)) = some true := by decide +kernel
  obtain ⟨r, hr, hplanned⟩ := Option.map_eq_some_iff.mp hplanned
  obtain ⟨hserving, hforeign, hmember, hlength⟩ := of_decide_eq_true hplanned
  have hreached := backup_reached hr
  cases hplan : r.plan (fromPrimary 2 (.getState 3)) with
  | error refusal =>
    rw [hplan] at hlength
    cases hlength
  | ok plan =>
    rw [hplan] at hlength
    exact ⟨r, plan, hreached, hplan, Option.some.inj hlength,
      serves_of_asked hreached (.fetched rfl hforeign rfl (.inl hmember) (.inl hserving)) hplan⟩

end Replica

end UvrrCore
