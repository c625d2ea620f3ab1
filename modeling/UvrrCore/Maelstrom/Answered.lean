import UvrrCore.Adoption
import UvrrCore.Established
import UvrrCore.Maelstrom.Membership
import UvrrCore.Storable

/-!
# Which membership verbs are answered

The record of an era names the slot that established it and not the operation. So a verb is
answered for whatever its host committed at its slot: a view change may have put the operation of
another verb there.

`Host.displaces` says when an input makes the core journal another establishing operation at the
slot of a pending verb. In a run without such inputs every verb is answered for its own operation.

## Main results

* `Host.Sound.step`: what one input keeps of a host, where it displaces no pending verb.
* `own_of_undisturbed`: in undisturbed runs a verb is answered only if its own operation committed.
-/

namespace UvrrCore

namespace Maelstrom

open Replica

namespace Host

/-- The core would journal, at the slot of a verb, an establishing operation that is not the
verb's. -/
def displaces (h : Host) (input : Input) (verb : Proposed) : Bool :=
  match h.replica.plan (h.timed input) with
  | .error _ => false
  | .ok plan => plan.journal.written.any fun entry =>
      entry.slot == verb.slot && entry.payload.isSystem &&
        entry.payload != .system verb.operation

/-- **The verb's own operation committed** at the slot its proposal took. -/
def Committed (h : Host) (verb : Proposed) : Prop :=
  ∃ entry, entryAt h.committed verb.slot = some entry ∧
    entry.payload = .system verb.operation

/-- No establishing operation but the verb's own was journaled or committed at its slot. -/
structure Clear (h : Host) (verb : Proposed) : Prop where
  behind : initSlot < verb.slot
  held : ∀ entry, Journal.get h.replica.journal verb.slot = some entry →
    entry.payload.isSystem = true → entry.payload = .system verb.operation
  committed : ∀ entry ∈ h.committed, entry.slot = verb.slot →
    entry.payload.isSystem = true → entry.payload = .system verb.operation

/-- A pending verb is clear, or its host faulted before the era it watches. -/
def Keeps (h : Host) (verb : Proposed) : Prop :=
  h.Clear verb ∨ (h.replica.progress.fault.isSome = true ∧
    h.replica.progress.config.record verb.watchEra = none)

/-- **What holds of a host** in a run without displaced verbs. -/
structure Sound (h : Host) : Prop where
  lived : ∃ ranges released, Lived False h.replica ranges released ∧
    h.committed = ranges.flatten
  tabled : h.replica.Tabled
  volatile : h.replica.stability = .volatile
  attempt : ∀ attempt, h.replica.viewChange = some attempt → attempt.Reported Fitting
  kept : ∀ verb ∈ h.pending, h.Keeps verb
  own : ∀ verb ∈ h.answered, h.Committed verb

variable {h : Host} {verb : Proposed} {input : Input}

/-! ### What a sound host has -/

theorem Sound.stocks (hs : h.Sound) : h.replica.Stocks := by
  obtain ⟨ranges, released, hlived, -⟩ := hs.lived
  obtain ⟨log, hbacked⟩ := hlived.backed
  refine ⟨fun slot entry hget => ?_, hs.attempt⟩
  obtain ⟨frontier, hfrontier, hle⟩ := LawfulJournal.get_le hget
  have := (SegmentedLog.accepted_bound hfrontier).2
  rw [LawfulJournal.get_slot hget]
  omega

/-- A committed slot holds one entry. -/
theorem Sound.slots (hs : h.Sound) : h.committed.map LogEntry.slot =
    List.range' (initSlot + 1) (h.replica.progress.committed - initSlot) := by
  obtain ⟨ranges, released, hlived, hcommitted⟩ := hs.lived
  rw [hcommitted]
  exact hlived.slots

theorem Sound.slot_le (hs : h.Sound) {entry : LogEntry} (hmem : entry ∈ h.committed) :
    entry.slot ≤ h.replica.progress.committed := by
  have hslot := List.mem_map_of_mem (f := LogEntry.slot) hmem
  rw [hs.slots, List.mem_range'_1] at hslot
  omega

theorem Sound.entryAt (hs : h.Sound) {entry : LogEntry} (hmem : entry ∈ h.committed) :
    entryAt h.committed entry.slot = some entry := by
  have hnodup : (h.committed.map LogEntry.slot).Nodup := by
    rw [hs.slots]
    exact List.nodup_range'
  cases hfind : UvrrCore.entryAt h.committed entry.slot with
  | none =>
    have := List.find?_eq_none.mp hfind entry hmem
    simp at this
  | some found =>
    congr 1
    exact List.inj_on_of_nodup_map hnodup (List.mem_of_find?_eq_some hfind) hmem
      (entryAt_slot hfind)

/-- **A clear verb that is due is the verb whose operation committed.** -/
theorem Sound.committed_of_due (hs : h.Sound) (hkeeps : h.Keeps verb)
    (hdue : h.verdict verb = some true) : h.Committed verb := by
  unfold verdict at hdue
  obtain ⟨record, hrecord, hslot⟩ := Option.map_eq_some_iff.mp hdue
  rcases hkeeps with hclear | ⟨-, hnone⟩
  · obtain ⟨ranges, released, hlived, hcommitted⟩ := hs.lived
    have hmem : record ∈ h.replica.progress.config.records :=
      List.mem_reverse.mp (List.mem_of_find?_eq_some hrecord)
    have hbehind := hclear.behind
    rw [beq_iff_eq] at hslot
    rcases hlived.table.established hmem with hearly | ⟨entry, hentry, hat, hsystem⟩
    · omega
    · rw [← hcommitted] at hentry
      rw [hslot] at hat
      exact ⟨entry, hat ▸ hs.entryAt hentry, hclear.committed entry hentry hat hsystem⟩
  · rw [hnone] at hrecord
    cases hrecord

/-- What committed stays committed. -/
theorem Committed.append (hown : h.Committed verb) {h' : Host} {later : List LogEntry}
    (hcommitted : h'.committed = h.committed ++ later) : h'.Committed verb := by
  obtain ⟨entry, hentry, hpayload⟩ := hown
  refine ⟨entry, ?_, hpayload⟩
  rw [hcommitted, entryAt_append, hentry]
  rfl

/-- A verb is kept by what the replica is and what committed. -/
theorem Keeps.of_same (hkeeps : h.Keeps verb) {h' : Host} (hreplica : h'.replica = h.replica)
    (hcommitted : h'.committed = h.committed) : h'.Keeps verb := by
  rcases hkeeps with hclear | hfaulted
  · refine .inl ⟨hclear.behind, ?_, ?_⟩
    · rw [hreplica]
      exact hclear.held
    · rw [hcommitted]
      exact hclear.committed
  · right
    rw [hreplica]
    exact hfaulted

/-- Neither the clock nor the identity map is part of what holds. -/
theorem Sound.moved (hs : h.Sound) (identity : Identity) (tick : Nat) :
    ({ h with identity := identity, tick := tick } : Host).Sound where
  lived := hs.lived
  tabled := hs.tabled
  volatile := hs.volatile
  attempt := hs.attempt
  kept := fun verb hmem => (hs.kept verb hmem).of_same rfl rfl
  own := hs.own

/-! ### One input -/

/-- **What a host's step is**: its replica's, with the clock moved on. -/
theorem step_cases (h : Host) (input : Input) :
    (∃ refusal, h.replica.plan (h.timed input) = .error refusal ∧
      h.step input = ({ h with tick := h.tick + 1 }, .error refusal)) ∨
    ∃ plan effects, h.replica.plan (h.timed input) = .ok plan ∧
      h.step input = (h.published (h.replica.step (h.timed input)).1, .ok effects) ∧
      (effects = [] ∨ effects = plan.effects) := by
  unfold step Replica.step
  cases hplan : h.replica.plan (h.timed input) with
  | error refusal => exact .inl ⟨refusal, rfl, rfl⟩
  | ok plan =>
    right
    refine ⟨plan, ?_⟩
    simp only
    cases hpublish : h.replica.publish plan with
    | mk replica outcome =>
      cases outcome with
      | error refusal => exact ⟨[], trivial, rfl, .inl rfl⟩
      | ok outcome =>
        cases outcome with
        | published revision effects =>
          obtain ⟨-, -, -, heffects⟩ := publish_published hpublish
          exact ⟨effects, trivial, rfl, .inr heffects⟩
        | parked revision effects => exact ⟨[], trivial, rfl, .inl rfl⟩

/-- What is committed by a publication is held behind it. -/
theorem mem_committedIn {journal : SegmentedLog} {start through : Nat} {entry : LogEntry}
    (hmem : entry ∈ committedIn journal start through) :
    Journal.get journal entry.slot = some entry := by
  obtain ⟨slot, -, hget⟩ := List.mem_filterMap.mp hmem
  rw [LawfulJournal.get_slot hget]
  exact hget

/-- **A clear verb that an input does not displace stays clear.** -/
theorem Sound.clear_step (hs : h.Sound) (hclear : h.Clear verb)
    (hcalm : h.displaces input verb = false) :
    (h.published (h.replica.step (h.timed input)).1).Clear verb := by
  obtain ⟨ranges, released, hlived, -⟩ := hs.lived
  obtain ⟨log, hbacked⟩ := hlived.backed
  have hheld : ∀ entry, Journal.get (h.replica.step (h.timed input)).1.journal verb.slot =
      some entry → entry.payload.isSystem = true → entry.payload = .system verb.operation := by
    intro entry hget hsystem
    rcases step_get hbacked.frontier hget with hold | ⟨plan, hplan, hwritten⟩
    · exact hclear.held entry hold hsystem
    · by_contra hother
      unfold displaces at hcalm
      rw [hplan] at hcalm
      simp only at hcalm
      have hpass := List.any_eq_false.mp hcalm entry hwritten
      rw [LawfulJournal.get_slot hget, hsystem] at hpass
      simp [hother] at hpass
  refine ⟨hclear.behind, hheld, fun entry hmem hat hsystem => ?_⟩
  rcases List.mem_append.mp hmem with hmem | hmem
  · exact hclear.committed entry hmem hat hsystem
  · have hget := mem_committedIn hmem
    rw [hat] at hget
    exact hheld entry hget hsystem

/-- **What one input keeps of a host**, where it displaces no pending verb. -/
theorem Sound.step (hs : h.Sound) (input : Input) (hstorable : (h.timed input).Storable)
    (hfresh : ∀ revision result, input ≠ .stabilityConfirmation revision result)
    (hcalm : ∀ verb ∈ h.pending, h.displaces input verb = false) :
    (h.step input).1.Sound ∧ ∀ effects, (h.step input).2 = .ok effects → Storing effects := by
  have hstocks := hs.stocks
  obtain ⟨ranges, released, hlived, hcommitted⟩ := hs.lived
  obtain ⟨log, hbacked⟩ := hlived.backed
  rcases step_cases h input with ⟨refusal, -, heq⟩ | ⟨plan, effects, hplan, heq, heffects⟩
  · rw [heq]
    exact ⟨hs.moved _ _, fun _ hok => by cases hok⟩
  · rw [heq]
    refine ⟨⟨⟨_, _, hlived.step hstorable False.elim, ?_⟩, hs.tabled.step _, ?_, ?_,
      fun verb hmem => .inl ?_, fun verb hmem => (hs.own verb hmem).append rfl⟩,
      fun _ hok => ?_⟩
    · rw [List.flatten_append, List.flatten_singleton, ← hcommitted]
      rfl
    · exact (step_stability _ _).trans hs.volatile
    · exact hstocks.step hbacked.offer hs.volatile hstorable hfresh
    -- a faulted host plans nothing, so its pending verbs are left as they are
    · rcases hs.kept verb hmem with hclear | ⟨hfault, -⟩
      · exact hs.clear_step hclear (hcalm verb hmem)
      · rw [(plan_gate hplan).1] at hfault
        cases hfault
    · cases hok
      rcases heffects with rfl | rfl
      · exact .nil
      · exact plan_storing hstocks hstorable hfresh hplan

/-! ### Routing -/

/-- The acknowledgement of an apply displaces nothing, and releases nothing. -/
theorem plan_applied_nothing {slot : Nat} {plan : PlannedTransition}
    (hplan : h.replica.plan (h.timed (.applied slot)) = .ok plan) :
    plan.journal = .none ∧ plan.effects = [] := by
  obtain ⟨applied, candidate, -, -, -, rfl⟩ := planApplied_ok (plan_applied_eq rfl hplan)
  exact ⟨rfl, rfl⟩

theorem displaces_applied (h : Host) (slot : Nat) (verb : Proposed) :
    h.displaces (.applied slot) verb = false := by
  unfold displaces
  cases hplan : h.replica.plan (h.timed (.applied slot)) with
  | error refusal => rfl
  | ok plan =>
    simp only
    rw [(plan_applied_nothing hplan).1]
    rfl

theorem step_applied {slot : Nat} {more : List Effect}
    (hok : (h.step (.applied slot)).2 = .ok more) : more = [] := by
  rcases step_cases h (.applied slot) with ⟨refusal, -, heq⟩ | ⟨plan, effects, hplan, heq, heffects⟩
  · rw [heq] at hok
    cases hok
  · rw [heq] at hok
    cases hok
    rcases heffects with rfl | rfl
    · rfl
    · exact (plan_applied_nothing hplan).2

/-- **A round for each effect is enough**: more of them route nothing more. -/
theorem route_enough {rounds : Nat} {effects : List Effect} (hle : effects.length ≤ rounds) :
    route rounds h effects = route effects.length h effects := by
  induction effects generalizing h rounds with
  | nil => cases rounds <;> rfl
  | cons effect effects ih =>
    obtain ⟨rounds, rfl⟩ : ∃ r, rounds = r + 1 := ⟨rounds - 1, by
      rw [List.length_cons] at hle
      omega⟩
    have hrest : effects.length ≤ rounds := Nat.le_of_succ_le_succ hle
    cases effect with
    | send recipient era message =>
      simp only [List.length_cons, route, ih hrest]
    | persist intent => exact ih hrest
    | adminResponse response => exact ih hrest
    | apply slot id payload =>
      simp only [List.length_cons, route]
      cases hstep : h.step (.applied slot) with
      | mk h' outcome =>
        cases outcome with
        | error refusal => exact ih hrest
        | ok more =>
          have hnone : more = [] := step_applied (by rw [hstep])
          subst hnone
          exact ih hrest

/-- Every peer line could be stored. -/
def Sends (lines : List Line) : Prop :=
  ∀ line ∈ lines, ∀ message, line.body = .vrr message → message.Storable

theorem Sends.nil : Sends [] := fun _ hmem => nomatch hmem

theorem Sends.cons {line : Line} {lines : List Line}
    (hline : ∀ message, line.body = .vrr message → message.Storable) (hlines : Sends lines) :
    Sends (line :: lines) := by
  intro other hmem
  rcases List.mem_cons.mp hmem with rfl | hmem
  · exact hline
  · exact hlines other hmem

theorem Sends.append {lines later : List Line} (hlines : Sends lines) (hlater : Sends later) :
    Sends (lines ++ later) := by
  intro line hmem
  rcases List.mem_append.mp hmem with hmem | hmem
  · exact hlines line hmem
  · exact hlater line hmem

/-- A host that stays sound, and sends what could be stored. -/
structure Goes (out : Host × List Line) : Prop where
  sound : out.1.Sound
  sends : Sends out.2

/-- **Routing keeps a host sound.** -/
theorem Sound.route (hs : h.Sound) (rounds : Nat) {effects : List Effect}
    (hstoring : Storing effects) : Goes (route rounds h effects) := by
  induction rounds generalizing h effects with
  | zero => exact ⟨hs, .nil⟩
  | succ rounds ih =>
    cases effects with
    | nil => exact ⟨hs, .nil⟩
    | cons effect effects =>
      have hfirst := hstoring effect (List.mem_cons_self ..)
      have hrest : Storing effects := fun other hmem =>
        hstoring other (List.mem_cons_of_mem _ hmem)
      cases effect with
      | persist intent => exact ih hs hrest
      | adminResponse response => exact ih hs hrest
      | send recipient era message =>
        unfold Host.route
        split
        · rename_i peer hpeer
          obtain ⟨hsound, hsends⟩ := ih hs hrest
          refine ⟨hsound, hsends.cons fun other heq => ?_⟩
          cases heq
          exact hfirst
        · exact ih hs hrest
      | apply slot id payload =>
        unfold Host.route
        have hstep := hs.step (.applied slot) (fun _ _ hpeer => by cases hpeer)
          (fun _ _ => nofun) fun verb _ => displaces_applied h slot verb
        split
        · rename_i h' more heq
          rw [heq] at hstep
          exact ih hstep.1 ((hstep.2 more rfl).append hrest)
        · rename_i h' refusal heq
          rw [heq] at hstep
          exact ih hstep.1 hrest

/-- Effects that are sends leave the host as it is. -/
theorem route_sends (rounds : Nat) {effects : List Effect}
    (hsends : ∀ effect ∈ effects, ∃ recipient era message,
      effect = .send recipient era message) : (Host.route rounds h effects).1 = h := by
  induction rounds generalizing effects with
  | zero => rfl
  | succ rounds ih =>
    cases effects with
    | nil => rfl
    | cons effect effects =>
      obtain ⟨recipient, era, message, rfl⟩ := hsends effect (List.mem_cons_self ..)
      have hrest := ih fun other hmem => hsends other (List.mem_cons_of_mem _ hmem)
      unfold Host.route
      split
      · exact hrest
      · exact hrest

theorem Sound.drive (hs : h.Sound) (hstorable : (h.timed input).Storable)
    (hfresh : ∀ revision result, input ≠ .stabilityConfirmation revision result)
    (hcalm : ∀ verb ∈ h.pending, h.displaces input verb = false) : Goes (h.drive input) := by
  have hstep := hs.step input hstorable hfresh hcalm
  unfold Host.drive
  split
  · rename_i h' effects heq
    rw [heq] at hstep
    exact hstep.1.route _ (hstep.2 effects rfl)
  · rename_i h' refusal heq
    rw [heq] at hstep
    exact ⟨hstep.1, .nil⟩

/-! ### Proposing -/

/-- The verb an accepted proposal is kept as. -/
structure KeptAs (h : Host) (operation : SystemOperation) (verb : Proposed) : Prop where
  operation : verb.operation = operation
  slot : verb.slot = h.replica.progress.accepted
  watchEra : Era.next h.replica.progress.current.era = some verb.watchEra

/-- Behind a published proposal its verb is clear: the slot is new. -/
theorem Sound.clear_published (hs : h.Sound) {operation : SystemOperation}
    {plan : PlannedTransition} {journal : SegmentedLog}
    (hproposes : h.replica.ProposesAt operation plan)
    (hjournal : mutateJournal h.replica.journal plan.journal = .ok journal)
    (hfrontier : (Journal.accepted h.replica.journal).getD Slot.none = h.replica.progress.accepted)
    (hverb : KeptAs (h.published (({ h.replica with parked := none } :
      Replica SegmentedLog).installed plan journal)) operation verb) :
    (h.published (({ h.replica with parked := none } :
      Replica SegmentedLog).installed plan journal)).Clear verb := by
  obtain ⟨ranges, released, hlived, -⟩ := hs.lived
  obtain ⟨log, hbacked⟩ := hlived.backed
  obtain ⟨entry, hwritten, hat, hpayload⟩ := hproposes.written
  have hslot : verb.slot = h.replica.progress.accepted + 1 :=
    hverb.slot.trans hproposes.accepted
  have hbelow := h.replica.progress.committed_le_accepted
  have hgenesis := hlived.genesis
  have hlength : log.length = h.replica.progress.accepted := by
    rw [hbacked.frontier] at hfrontier
    exact hfrontier
  refine ⟨by omega, fun held hget _ => ?_, fun held hmem hheld _ => ?_⟩
  · rw [hwritten] at hjournal
    obtain ⟨-, -, -, hreads⟩ := LawfulJournal.accept_ok hbacked.frontier hjournal
    have hread : Journal.get journal verb.slot = some held := hget
    rw [hreads, if_neg (by omega)] at hread
    rw [List.mem_singleton.mp (List.mem_of_find?_eq_some hread), hpayload, hverb.operation]
  · have hnothing : committedIn journal h.replica.progress.committed
        plan.candidate.committed = [] := by
      unfold committedIn
      rw [hproposes.committed, Nat.sub_self]
      rfl
    have hold : held ∈ h.committed ++ committedIn journal h.replica.progress.committed
        plan.candidate.committed := hmem
    rw [hnothing, List.append_nil] at hold
    have := hs.slot_le hold
    omega

/-- Behind a proposal that faulted its node the era its verb watches is not on record. -/
theorem Sound.faulted_published (hs : h.Sound) {operation : SystemOperation}
    {plan : PlannedTransition} (hproposes : h.replica.ProposesAt operation plan)
    (hfault : h.replica.progress.fault = none) {r : Replica SegmentedLog} (fault : Fault)
    (hsame : r.progress = h.replica.progress)
    (hverb : KeptAs (h.published (r.faultNode fault)) operation verb) :
    (h.published (r.faultNode fault)).Keeps verb := by
  refine .inr ⟨faultNode_isSome fault (by rw [hsame]; exact hfault)
    (by rw [hsame]; exact hproposes.room), ?_⟩
  have hwatch : Era.next (r.faultNode fault).progress.current.era = some verb.watchEra :=
    hverb.watchEra
  have hrecord : (r.faultNode fault).progress.config = h.replica.progress.config ∧
      (r.faultNode fault).progress.current = h.replica.progress.current := by
    rcases faultNode_cases r fault with heq | ⟨progress, heq, hdata⟩
    · rw [heq, hsame]
      exact ⟨rfl, rfl⟩
    · rw [heq]
      show progress.config = _ ∧ progress.current = _
      rw [hdata, hsame]
      exact ⟨rfl, rfl⟩
  obtain ⟨hconfig, hcurrent⟩ := hrecord
  rw [hcurrent] at hwatch
  obtain ⟨-, hnext⟩ := Era.next_eq_some.mp hwatch
  have hera := hproposes.era
  show (r.faultNode fault).progress.config.record verb.watchEra = none
  rw [hconfig]
  -- the gate found the newest era on record to be the one served
  cases hfound : h.replica.progress.config.record verb.watchEra with
  | none => rfl
  | some found =>
    rcases hs.tabled.published.era_of_record hfound with ⟨heq, -⟩ | ⟨heq, -⟩
    · omega
    · omega

/-- **What an accepted proposal leaves**: it only sends, and the verb it is kept as is kept. -/
theorem Sound.proposed (hs : h.Sound) {operation : SystemOperation} {pivot : Option Pivot}
    {effects : List Effect} (hok : (h.step (.reconfigure operation pivot)).2 = .ok effects) :
    (∀ effect ∈ effects, ∃ recipient era message, effect = .send recipient era message) ∧
      ∀ verb, KeptAs (h.step (.reconfigure operation pivot)).1 operation verb →
        (h.step (.reconfigure operation pivot)).1.Keeps verb := by
  unfold Host.step at hok ⊢
  cases hplan : h.replica.plan (h.timed (.reconfigure operation pivot)) with
  | error refusal =>
    rw [hplan] at hok
    cases hok
  | ok plan =>
    rw [hplan] at hok
    simp only at hok ⊢
    obtain ⟨hfault, hfrontier⟩ := plan_gate hplan
    have hproposes := planReconfigure_proposes (plan_reconfigure_eq rfl hplan)
    rcases hproposes.publishes hs.volatile hfault with
      ⟨journal, hjournal, heq⟩ | ⟨fault, refusal, heq | heq⟩
    · simp only [heq] at hok ⊢
      cases hok
      exact ⟨hproposes.sends, fun _ hverb =>
        .inl (hs.clear_published hproposes hjournal hfrontier hverb)⟩
    · simp only [heq] at hok ⊢
      cases hok
      exact ⟨fun _ => nofun, fun _ => hs.faulted_published hproposes hfault fault rfl⟩
    · simp only [heq] at hok ⊢
      cases hok
      exact ⟨fun _ => nofun, fun _ => hs.faulted_published hproposes hfault fault rfl⟩

/-- **What a proposal is**: one step, tried again without its pivot after a refusal. -/
theorem propose_cases (h : Host) (operation : SystemOperation) :
    ∃ (tick : Nat) (pivot : Option Pivot),
      (tick = h.tick ∧ pivot = h.proposalPivot operation ∨ pivot = none) ∧
        h.propose operation =
          ({ h with tick := tick } : Host).step (.reconfigure operation pivot) := by
  unfold propose
  simp only
  split
  · rename_i pivot h' current hpivot heq
    refine ⟨h.tick + 1, none, .inr rfl, ?_⟩
    rcases step_cases h (.reconfigure operation (h.proposalPivot operation)) with
      ⟨refusal, -, hstep⟩ | ⟨plan, effects, -, hstep, -⟩
    · rw [hstep] at heq
      rw [← (Prod.mk.inj heq).1]
    · rw [hstep] at heq
      cases (Prod.mk.inj heq).2
  · exact ⟨h.tick, h.proposalPivot operation, .inl ⟨rfl, rfl⟩, rfl⟩

/-! ### Lines -/

/-- The inputs an operation may hand to the core of a host: a verb's proposal, and the one without
its pivot. -/
def offered (h : Host) (request : Request) : List Input :=
  if h.leads then
    match request with
    | .kv operation => [.propose operation]
    | .membership verb nodeId =>
      match nodeId.bind h.identity.attributed with
      | none => []
      | some node =>
        let operation := h.operationOf verb node
        [.reconfigure operation (h.proposalPivot operation), .reconfigure operation none]
  else []

/-- The inputs a line may hand to the core of a host. -/
def inputs (h : Host) (line : Line) : List Input :=
  match line.body with
  | .vrr message =>
    match (h.identity.onPeer { src := line.src, decoded := some message }).2 with
    | none => []
    | some (sender, fed) => [.peer sender fed]
  | .request _ request | .proxy _ _ request => h.offered request
  | .proxyReply _ _ _ | .reply _ _ => []

/-- One of the inputs displaces a pending verb. -/
def disturbs (h : Host) (inputs : List Input) : Bool :=
  h.pending.any fun verb => inputs.any fun input => h.displaces input verb

theorem calm_of_undisturbed {inputs : List Input} (hcalm : h.disturbs inputs = false)
    (hmem : input ∈ inputs) : ∀ verb ∈ h.pending, h.displaces input verb = false := by
  intro verb hverb
  have hnone := List.any_eq_false.mp hcalm verb hverb
  rw [Bool.not_eq_true] at hnone
  exact Bool.eq_false_of_not_eq_true (List.any_eq_false.mp hnone input hmem)

theorem answer_body (h : Host) (waiter : Waiter) (body : Reply) (message : Message) :
    (h.answer waiter body).body ≠ .vrr message := by
  cases waiter <;> exact nofun

theorem forward_body (h : Host) (waiter : Waiter) (op : Request) (message : Message) :
    (h.forward waiter op).body ≠ .vrr message := by
  unfold forward refuse
  split
  · split
    · exact nofun
    · exact answer_body h _ _ message
  · exact answer_body h _ _ message

theorem Sends.answer (h : Host) (waiter : Waiter) (body : Reply) : Sends [h.answer waiter body] :=
  .cons (fun message heq => absurd heq (answer_body h waiter body message)) .nil

theorem Sends.forward (h : Host) (waiter : Waiter) (op : Request) : Sends [h.forward waiter op] :=
  .cons (fun message heq => absurd heq (forward_body h waiter op message)) .nil

theorem storable_of_host {time : Nat} (hpeer : input.isPeer = false) :
    ({ time := time, event := input } : TimedInput).Storable := by
  intro sender message hevent
  rw [show input = .peer sender message from hevent] at hpeer
  cases hpeer

/-- What a proposal leaves behind, whether tried again or not. -/
theorem Sound.propose (hs : h.Sound) {operation : SystemOperation}
    (hcalm : h.disturbs [.reconfigure operation (h.proposalPivot operation),
      .reconfigure operation none] = false) :
    (h.propose operation).1.Sound ∧ ∀ effects, (h.propose operation).2 = .ok effects →
      (∀ effect ∈ effects, ∃ recipient era message, effect = .send recipient era message) ∧
      Storing effects ∧ ∀ verb, KeptAs (h.propose operation).1 operation verb →
        (h.propose operation).1.Keeps verb := by
  obtain ⟨tick, pivot, htried, heq⟩ := propose_cases h operation
  have hmoved := hs.moved h.identity tick
  have hquiet : ∀ verb ∈ h.pending, h.displaces (.reconfigure operation pivot) verb = false := by
    refine calm_of_undisturbed hcalm ?_
    rcases htried with ⟨-, rfl⟩ | rfl
    · exact List.mem_cons_self ..
    · exact List.mem_cons_of_mem _ (List.mem_singleton.mpr rfl)
  -- the plan of a proposal does not read the clock, so it displaces no more at the second try
  have hstep := hmoved.step (.reconfigure operation pivot) (storable_of_host rfl)
    (fun _ _ => nofun) hquiet
  rw [heq]
  refine ⟨hstep.1, fun effects hok => ?_⟩
  obtain ⟨hsends, hkept⟩ := hmoved.proposed hok
  exact ⟨hsends, hstep.2 effects hok, hkept⟩

/-- One more pending verb. -/
theorem Sound.keep (hs : h.Sound) (hkeeps : h.Keeps verb) :
    ({ h with pending := h.pending ++ [verb] } : Host).Sound := by
  refine ⟨hs.lived, hs.tabled, hs.volatile, hs.attempt, fun other hmem => ?_, hs.own⟩
  rcases List.mem_append.mp hmem with hmem | hmem
  · exact (hs.kept other hmem).of_same rfl rfl
  · rw [List.mem_singleton.mp hmem]
    exact hkeeps.of_same rfl rfl

/-- **A verb submitted.** -/
theorem Sound.submitMembership (hs : h.Sound) {kind : Verb} {nodeId : Option String}
    {waiter : Waiter} (hcalm : h.disturbs (h.offered (.membership kind nodeId)) = false) :
    Goes (h.submitMembership kind nodeId waiter) := by
  unfold Host.submitMembership
  split
  · exact ⟨hs, .answer _ _ _⟩
  · rename_i target
    split
    · exact ⟨hs, .answer _ _ _⟩
    · rename_i node hnode
      split
      · rename_i hleads
        have hoffered : h.offered (.membership kind (some target)) =
            [.reconfigure (h.operationOf kind node) (h.proposalPivot (h.operationOf kind node)),
              .reconfigure (h.operationOf kind node) none] := by
          unfold offered
          rw [if_pos hleads]
          simp only [Option.bind_some, hnode]
        rw [hoffered] at hcalm
        have hproposed := hs.propose hcalm
        simp only
        split
        · rename_i h' effects heq
          rw [heq] at hproposed
          obtain ⟨hsound, hleft⟩ := hproposed
          obtain ⟨hsends, hstoring, hkept⟩ := hleft effects rfl
          have hroute := hsound.route effects.length hstoring
          have hsame := route_sends (h := h') effects.length hsends
          generalize Host.route effects.length h' effects = out at hroute hsame
          obtain ⟨routed, lines⟩ := out
          simp only at hsame ⊢
          subst hsame
          split
          · exact hroute
          · rename_i watchEra hwatch
            exact ⟨hroute.sound.keep (hkept _ ⟨rfl, rfl, hwatch⟩), hroute.sends⟩
        · rename_i h' refusal heq
          rw [heq] at hproposed
          exact ⟨hproposed.1, .answer _ _ _⟩
      · exact ⟨hs, .forward _ _ _⟩

theorem Sound.submit (hs : h.Sound) {request : Request} {waiter : Waiter}
    (hcalm : h.disturbs (h.offered request) = false) : Goes (h.submit request waiter) := by
  cases request with
  | membership kind nodeId => exact hs.submitMembership hcalm
  | kv operation =>
    unfold Host.submit
    simp only
    split
    · rename_i hleads
      have hoffered : h.offered (.kv operation) = [.propose operation] := by
        unfold offered
        rw [if_pos hleads]
      rw [hoffered] at hcalm
      have hstep := hs.step (.propose operation) (storable_of_host rfl)
        (fun _ _ => nofun) (calm_of_undisturbed hcalm (List.mem_singleton.mpr rfl))
      split
      · rename_i h' effects heq
        rw [heq] at hstep
        exact hstep.1.route _ (hstep.2 effects rfl)
      · rename_i h' refusal heq
        rw [heq] at hstep
        exact ⟨hstep.1, .answer _ _ _⟩
    · exact ⟨hs, .forward _ _ _⟩

theorem Sound.onPeer (hs : h.Sound) {src : String} {message : Message}
    (hstorable : message.Storable) {dest : String}
    (hcalm : h.disturbs (h.inputs { src := src, dest := dest, body := .vrr message }) = false) :
    Goes (h.onPeer src message) := by
  have hfed : ∀ sender fed, (h.identity.onPeer { src := src, decoded := some message }).2 =
      some (sender, fed) → fed = message := fun _ _ => Identity.onPeer_message
  unfold Host.onPeer
  unfold inputs at hcalm
  simp only at hcalm
  generalize h.identity.onPeer { src := src, decoded := some message } = out at hcalm hfed
  obtain ⟨identity, heard⟩ := out
  have hmoved := hs.moved identity h.tick
  cases heard with
  | none => exact ⟨hmoved, .nil⟩
  | some heard =>
    obtain ⟨sender, fed⟩ := heard
    obtain rfl := hfed sender fed rfl
    refine hmoved.drive (fun other body hevent => ?_) (fun _ _ => nofun)
      (calm_of_undisturbed hcalm (List.mem_singleton.mpr rfl))
    cases hevent
    exact hstorable

theorem Sound.receive (hs : h.Sound) {line : Line}
    (hstorable : ∀ message, line.body = .vrr message → message.Storable)
    (hcalm : h.disturbs (h.inputs line) = false) : Goes (h.receive line) := by
  obtain ⟨src, dest, body⟩ := line
  cases body with
  | request msgId request => exact hs.submit hcalm
  | vrr message => exact hs.onPeer (hstorable message rfl) hcalm
  | proxy client clientMsgId op => exact hs.submit hcalm
  | proxyReply client clientMsgId body => exact ⟨hs, .cons (fun _ => nofun) .nil⟩
  | reply inReplyTo body => exact ⟨hs, .nil⟩

/-- **Settling keeps a host sound**: what is answered has its own operation committed. -/
theorem Sound.flushMembership (hs : h.Sound) : Goes h.flushMembership := by
  refine ⟨⟨hs.lived, hs.tabled, hs.volatile, hs.attempt, fun verb hmem => ?_, fun verb hmem => ?_⟩,
    fun line hmem message heq => ?_⟩
  · exact (hs.kept verb (List.mem_of_mem_filter hmem)).of_same rfl rfl
  · rcases List.mem_append.mp hmem with hmem | hmem
    · exact hs.own verb hmem
    · obtain ⟨hpending, hdue⟩ := List.mem_filter.mp hmem
      exact hs.committed_of_due (hs.kept verb hpending) (by simpa using hdue)
  · obtain ⟨verb, -, rfl⟩ := List.mem_map.mp hmem
    exact absurd heq (answer_body h _ _ message)

/-- **One line**, where it disturbs no pending verb. -/
theorem Sound.onMessage (hs : h.Sound) {line : Line}
    (hstorable : ∀ message, line.body = .vrr message → message.Storable)
    (hcalm : h.disturbs (h.inputs line) = false) : Goes (h.onMessage line) := by
  have hreceive := hs.receive hstorable hcalm
  unfold Host.onMessage
  generalize h.receive line = out at hreceive
  obtain ⟨received, lines⟩ := out
  have hflush := hreceive.sound.flushMembership
  exact ⟨hflush.sound, hreceive.sends.append hflush.sends⟩

theorem Sound.onTick (hs : h.Sound) (hcalm : h.disturbs [.tick] = false) : Goes h.onTick :=
  hs.drive (storable_of_host rfl) (fun _ _ => nofun)
    (calm_of_undisturbed hcalm (List.mem_singleton.mpr rfl))

/-- **A host is sound at its init.** -/
theorem init_sound {roster : Roster} {id : String} (hinit : Host.init roster id = some h) :
    h.Sound := by
  unfold Host.init at hinit
  obtain ⟨index, -, hinit⟩ := Option.bind_eq_some_iff.mp hinit
  obtain ⟨replica, hreplica, hinit⟩ := Option.bind_eq_some_iff.mp hinit
  have hprovision := toOption_eq_some hreplica
  cases hinit
  obtain ⟨table, journal, progress, -, -, -, -, heq⟩ := provision_data hprovision
  refine ⟨⟨[], [], lived_provision hprovision, rfl⟩, (Reached.provision hprovision).tabled, ?_,
    fun attempt hsome => ?_, fun _ => nofun, fun _ => nofun⟩
  · show replica.stability = .volatile
    rw [heq]
    rfl
  · have hnone : replica.viewChange = some attempt := hsome
    rw [heq] at hnone
    cases hnone

end Host

namespace Bench

/-! ### Runs -/

/-- The event makes a host journal, at the slot of a verb pending there, an establishing operation
that is not the verb's. -/
def displaced (b : Bench) (event : Event) : Bool :=
  match event with
  | .init _ => false
  | .tick node =>
    match b.hosts node with
    | none => false
    | some host => host.disturbs [.tick]
  | event =>
    match b.lineOf event with
    | none => false
    | some line =>
      match b.hosts line.dest with
      | none => false
      | some host => host.disturbs (host.inputs line)

/-- No event of a run displaces a pending verb. -/
def undisturbed : Bench → List Event → Bool
  | _, [] => true
  | b, event :: events => !b.displaced event && undisturbed (b.step event) events

/-- What holds of a bench: its hosts are sound, and every peer line could be stored. -/
structure Sound (b : Bench) : Prop where
  hosts : ∀ node host, b.hosts node = some host → host.Sound
  sends : Host.Sends b.sent

variable {b : Bench}

theorem Sound.setHost (hb : b.Sound) {out : Host × List Line} (hgoes : Host.Goes out)
    (node : String) : (b.setHost node out.1 out.2).Sound := by
  refine ⟨fun other host hhost => ?_, hb.sends.append hgoes.sends⟩
  have hpicked : (if other = node then some out.1 else b.hosts other) = some host := hhost
  split at hpicked
  · cases hpicked
    exact hgoes.sound
  · exact hb.hosts other host hpicked

/-- A client's line carries no message of a peer. -/
theorem Sound.lineOf (hb : b.Sound) {event : Event} {line : Line}
    (hline : b.lineOf event = some line) (message : Message) (hbody : line.body = .vrr message) :
    message.Storable := by
  cases event with
  | init node => cases hline
  | tick node => cases hline
  | client src dest msgId request =>
    cases hline
    cases hbody
  | deliver index => exact hb.sends line (List.mem_of_getElem? hline) message hbody

theorem Sound.receive (hb : b.Sound) {line : Line}
    (hstorable : ∀ message, line.body = .vrr message → message.Storable)
    (hcalm : ∀ host, b.hosts line.dest = some host →
      host.disturbs (host.inputs line) = false) : (b.receive line).Sound := by
  unfold Bench.receive
  split
  · exact hb
  · rename_i host hhost
    exact hb.setHost ((hb.hosts _ host hhost).onMessage hstorable (hcalm host hhost)) line.dest

/-- **One event**, where it displaces no pending verb. -/
theorem Sound.step (hb : b.Sound) {event : Event} (hcalm : b.displaced event = false) :
    (b.step event).Sound := by
  have hreceive : ∀ line, b.lineOf event = some line →
      (∀ host, b.hosts line.dest = some host → host.disturbs (host.inputs line) = false) →
        (b.receive line).Sound := fun line hline =>
    hb.receive (hb.lineOf hline)
  cases event with
  | init node =>
    unfold Bench.step
    simp only
    split
    · rename_i host hnone hinit
      have hgoes : Host.Goes (host, []) := ⟨Host.init_sound hinit, .nil⟩
      exact hb.setHost hgoes node
    · exact hb
  | tick node =>
    unfold Bench.step
    unfold displaced at hcalm
    simp only at hcalm ⊢
    cases hhost : b.hosts node with
    | none => exact hb
    | some host =>
      rw [hhost] at hcalm
      exact hb.setHost ((hb.hosts node host hhost).onTick hcalm) node
  | client src dest msgId request =>
    refine hreceive _ rfl fun host hhost => ?_
    unfold displaced at hcalm
    simp only [Bench.lineOf] at hcalm
    simp only at hhost
    rw [hhost] at hcalm
    exact hcalm
  | deliver index =>
    unfold Bench.step
    unfold displaced at hcalm
    simp only at hcalm ⊢
    cases hline : b.lineOf (.deliver index) with
    | none => exact hb
    | some line =>
      rw [hline] at hcalm
      refine hreceive line hline fun host hhost => ?_
      simp only at hcalm
      rw [hhost] at hcalm
      exact hcalm

theorem Sound.run (hb : b.Sound) {events : List Event} (hcalm : b.undisturbed events = true) :
    (b.run events).Sound := by
  induction events generalizing b with
  | nil => exact hb
  | cons event events ih =>
    simp only [undisturbed, Bool.and_eq_true, Bool.not_eq_true'] at hcalm
    exact ih (hb.step hcalm.1) hcalm.2

theorem start_sound (roster : Roster) : (start roster).Sound where
  hosts := fun _ _ hhost => nomatch hhost
  sends := .nil

/-- **In an undisturbed run a verb is answered only if its own operation committed**, at the slot
its proposal took. -/
theorem own_of_undisturbed (roster : Roster) (events : List Event)
    (hcalm : (start roster).undisturbed events = true) (node : String) (host : Host)
    (hhost : ((start roster).run events).hosts node = some host) (verb : Proposed)
    (hanswered : verb ∈ host.answered) : host.Committed verb :=
  (((start_sound roster).run hcalm).hosts node host hhost).own verb hanswered

/-! ### A verb answered for another -/

def threeNodes : Roster where
  members := ["n1", "n2", "n3"]
  fits := by decide

/-- Three hosts come up, and the first is asked to demote the third. -/
def served : List Event :=
  [.init "n1", .init "n2", .init "n3", .tick "n1", .deliver 0, .deliver 1,
    .client "c1" "n1" 1 (.membership .demote (some "n3"))]

/-- The verb as the first host keeps it. -/
def demotion : Proposed where
  watchEra := 2
  slot := 3
  waiter := .client "c1" 1
  replyKind := "demote_ok"
  operation := .decrement 196609

/-- The proposal reaches the second host, and its acknowledgement the first: the verb is answered,
and its operation committed. -/
theorem own_of_undisturbed_served : ∃ host,
    ((start threeNodes).run (served ++ [.deliver 2, .deliver 4])).hosts "n1" = some host ∧
      demotion ∈ host.answered ∧ host.Committed demotion := by
  have hanswered : (((start threeNodes).run (served ++ [.deliver 2, .deliver 4])).hosts "n1").map
      Host.answered = some [demotion] := by decide +kernel
  obtain ⟨host, hhost, hlist⟩ := Option.map_eq_some_iff.mp hanswered
  have hmem : demotion ∈ host.answered := by
    rw [hlist]
    exact List.mem_singleton.mpr rfl
  exact ⟨host, hhost, hmem, own_of_undisturbed threeNodes _ (by decide +kernel) "n1" host hhost
    demotion hmem⟩

/-- The proposal is lost. The second host suspects the first, opens the next view with the third,
and is asked to demote the first; that proposal takes the same slot and commits. -/
def replaced : List Event :=
  served ++ List.replicate 26 (.tick "n2") ++
    [.deliver 5, .deliver 7, .deliver 8, .deliver 10, .deliver 9,
      .client "c2" "n2" 1 (.membership .demote (some "n1")), .deliver 12, .deliver 11, .deliver 13,
      .deliver 15]

/-- **The replaced verb is answered**: the first host reports the third demoted when it was itself
demoted. -/
theorem replaced_answered : ¬ ∀ (roster : Roster) (events : List Event) (node : String)
    (host : Host), ((start roster).run events).hosts node = some host →
      ∀ verb ∈ host.answered, host.Committed verb := by
  intro hall
  have hrun : (((start threeNodes).run replaced).hosts "n1").map
      (fun host => (host.answered, host.committed)) =
        some ([demotion], [{ slot := 3, era := 1, payload := .system (.decrement 65537) }]) := by
    decide +kernel
  obtain ⟨host, hhost, hheld⟩ := Option.map_eq_some_iff.mp hrun
  obtain ⟨hanswered, hcommitted⟩ := Prod.mk.inj hheld
  obtain ⟨entry, hentry, hpayload⟩ := hall threeNodes replaced "n1" host hhost demotion (by
    rw [hanswered]
    exact List.mem_singleton.mpr rfl)
  rw [hcommitted] at hentry
  cases hentry
  cases hpayload

end Bench

end Maelstrom

end UvrrCore
