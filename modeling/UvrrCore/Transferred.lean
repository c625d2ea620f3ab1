import UvrrCore.Refusals

/-!
# What a transferred chunk commits

A responder answers a fetch with a run of its journal and its committed frontier. The requester
commits up to that frontier, beneath the chunk as well, where nothing is compared: the answer
echoes the view of the request, and says nothing of the ballot the responder has moved to.

* `planNewState_agrees_iff`: where the journal behind a chunk agrees with the responder's.
* `transferred_agrees_iff`: the same of every fetch and its answer in every run of a cluster.
-/

namespace UvrrCore

/-! ### Journals that agree at a slot -/

/-- The journals hold the same entry at a slot, if both still hold one. -/
def AgreesAt {J : Type} [Journal J] (journal other : J) (slot : Nat) : Prop :=
  ∀ entry held, Journal.get journal slot = some entry → Journal.get other slot = some held →
    entry = held

/-- The message carries an entry of its sender's journal at the slot. -/
def Message.Carries (message : Message) (slot : Nat) : Prop :=
  match message.body with
  | .newState entries _ _ _ => ∃ entry ∈ entries, entry.slot = slot
  | _ => False

/-- A journal that holds entries, from the first slot on or later. -/
structure Stocked (journal : SegmentedLog) : Prop where
  first : voidSlot ≤ (Journal.retained journal).1
  held : (Journal.accepted journal).isSome

namespace Replica

variable {r : Replica SegmentedLog} {source : SegmentedLog}

/-- **What the journal behind a checked offer reads back**: beneath the offer what it read before,
and from there on what the source of the offer holds. -/
theorem checkSuffix_reads {suffix : List LogEntry} {accepted committed : Nat}
    {mutation : JournalMutation} {journal : SegmentedLog}
    (hstocked : Stocked r.journal) (hsource : Stocked source)
    (hfrontier : Journal.accepted r.journal = some r.progress.accepted)
    (hheld : ∀ entry ∈ suffix, Journal.get source entry.slot = some entry)
    (hshaped : Shaped suffix accepted)
    (hcheck : r.checkSuffix suffix accepted committed Slot.none = .install mutation)
    (hjournal : mutateJournal r.journal mutation = .ok journal) :
    (∀ slot < firstSlot suffix accepted, Journal.get journal slot = Journal.get r.journal slot) ∧
      ∀ slot, firstSlot suffix accepted ≤ slot → slot ≤ accepted →
        AgreesAt journal source slot := by
  obtain ⟨log, hreads, hlength⟩ := SegmentedLog.exists_log hfrontier hstocked.first
  obtain ⟨end_, hend⟩ := Option.isSome_iff_exists.mp hsource.held
  obtain ⟨offered, hoffered, -⟩ := SegmentedLog.exists_log hend hsource.first
  obtain ⟨log', hmutates, hlen, hnear, hbelow, habove⟩ := checkSuffix_spliced hreads hlength.symm
    (fun entry hmem => hoffered _ _ (hheld entry hmem)) hshaped hcheck
  obtain ⟨hreads', hfrontier', hfirst'⟩ :=
    hmutates.reads hreads (hfrontier.trans (congrArg some hlength.symm)) hjournal
  obtain ⟨hpos, hreach, -, -⟩ := firstSlot_of_shaped hshaped
  -- a slot that one of the journals reads is retained, and so read by the other
  have hretained : ∀ (held : SegmentedLog) (slot : Nat) (entry : LogEntry),
      (Journal.retained held).1 = (Journal.retained r.journal).1 →
      Journal.get held slot = some entry → (Journal.retained r.journal).1 ≤ slot := by
    intro held slot entry hsame hget
    rw [← hsame]
    exact Nat.le_of_not_lt fun hlt => by rw [LawfulJournal.get_lt_first hlt] at hget; cases hget
  refine ⟨fun slot hlt => ?_, fun slot hlow hhigh entry held hget hget' => ?_⟩
  · cases hget : Journal.get journal slot with
    | some entry =>
      have hlow := hretained journal slot entry hfirst' hget
      obtain ⟨held, hheld'⟩ := Option.isSome_iff_exists.mp
        (LawfulJournal.get_isSome hfrontier hlow (by omega))
      have hentry := hreads' slot entry hget
      rw [hbelow slot hlt, hreads slot held hheld'] at hentry
      rw [hheld', hentry]
    | none =>
      cases hget' : Journal.get r.journal slot with
      | none => rfl
      | some held =>
        have hlow := hretained r.journal slot held rfl hget'
        have hsome := LawfulJournal.get_isSome hfrontier' (hfirst'.le.trans hlow) (by omega)
        rw [hget] at hsome
        cases hsome
  · have hentry := hreads' slot entry hget
    rcases habove slot hlow hhigh with heq | ⟨hzero, -⟩
    · rw [heq, hoffered slot held hget'] at hentry
      exact (Option.some.inj hentry).symm
    · have : slot = 0 := Nat.le_zero.mp hzero
      omega

/-! ### The install of a chunk that commits -/

/-- A plan that moves the committed frontier is no drop. -/
theorem dropPlan_unmoved {diagnostic : Diagnostic} {kind : InputKind} {plan : PlannedTransition}
    (h : r.dropPlan diagnostic kind = .ok plan) :
    ¬ r.progress.committed < plan.candidate.committed := by
  obtain ⟨candidate, hsame, rfl⟩ := dropPlan_ok h
  rw [show (PlannedTransition.candidate _) = candidate from rfl, hsame]
  exact Nat.lt_irrefl _

theorem breachPlan_unmoved {kind : InputKind} {plan : PlannedTransition}
    (h : r.breachPlan kind = .ok plan) : ¬ r.progress.committed < plan.candidate.committed := by
  obtain ⟨candidate, hsame, rfl⟩ := breachPlan_ok h
  rw [show (PlannedTransition.candidate _) = candidate from rfl, hsame]
  exact Nat.lt_irrefl _

/-- The record of an installed chunk commits what was folded. -/
theorem installChunk_committed {sender : Nat} {view : Ballot} {entries : List LogEntry}
    {through : Nat} {more : Bool} {folded : FoldedCommit} {mutation : JournalMutation}
    {kind : InputKind} {plan : PlannedTransition}
    (h : r.installChunk sender view entries through more folded mutation kind = .ok plan) :
    plan.journal = mutation ∧ plan.candidate.committed = folded.covered := by
  obtain ⟨applies, -, h⟩ := bind_eq_ok.mp h
  obtain ⟨walkedView, -, h⟩ := bind_eq_ok.mp h
  obtain ⟨applied, -, h⟩ := bind_eq_ok.mp h
  obtain ⟨candidate, hcandidate, h⟩ := bind_eq_ok.mp h
  cases pure_eq_ok.mp h
  refine ⟨rfl, ?_⟩
  show candidate.committed = _
  unfold chunkCandidate at hcandidate
  split at hcandidate
  · rw [walkedCandidate_ok hcandidate]
  · rw [candidateWith_ok hcandidate]
    rfl

/-- **What a chunk that commits installs**: all of it, or, at a boot fence, the part that the fold
covered. -/
theorem planNewState_commits {sender : Nat} {message : Message} {entries : List LogEntry}
    {through committed : Nat} {more : Bool} {kind : InputKind} {plan : PlannedTransition}
    (h : r.planNewState sender message entries through committed more kind = .ok plan)
    (hadvances : r.progress.committed < plan.candidate.committed) :
    suffixShapeOk entries through = true ∧ plan.candidate.committed ≤ through ∧
      (r.checkSuffix entries through committed Slot.none = .install plan.journal ∨
        (plan.candidate.committed < through ∧
          r.truncatedMutation entries plan.candidate.committed committed =
            .install plan.journal)) := by
  cases planNewState_cases h with
  | dropped _ hdrop => exact absurd hadvances (dropPlan_unmoved hdrop)
  | breached hbreach => exact absurd hadvances (breachPlan_unmoved hbreach)
  | closed emitted hemit hplan =>
    subst hplan
    obtain ⟨candidate, hsame, rfl⟩ := emitPlan_ok hemit
    have hcommitted : candidate.committed = r.progress.committed := by rw [hsame]
    have hmoved : r.progress.committed < candidate.committed := hadvances
    omega
  | installed record _ _ hformed _ _ hahead whole hwhole folded hfold mutation hverdict hinstall =>
    obtain ⟨hmutation, hcommitted⟩ := installChunk_committed hinstall
    obtain ⟨-, hlow, hcovered⟩ := foldChunk_bounds hfold
    simp only [not_or, Bool.not_eq_false] at hformed
    rw [hmutation, hcommitted]
    refine ⟨hformed.2.2.1, by omega, ?_⟩
    rcases chunkVerdict_install hverdict with ⟨-, rfl⟩ | ⟨-, hshort, hpart⟩
    · exact .inl hwhole
    · exact .inr ⟨hshort, hpart⟩

/-- **Where the journal behind a chunk that commits agrees with its source**: at the slots the chunk
carries, and beneath it where the journal agreed before. -/
theorem planNewState_agrees_iff {sender : Nat} {message : Message} {entries : List LogEntry}
    {through committed : Nat} {more : Bool} {kind : InputKind} {plan : PlannedTransition}
    {journal : SegmentedLog} (hstocked : Stocked r.journal) (hsource : Stocked source)
    (hfrontier : Journal.accepted r.journal = some r.progress.accepted)
    (hheld : ∀ entry ∈ entries, Journal.get source entry.slot = some entry)
    (h : r.planNewState sender message entries through committed more kind = .ok plan)
    (hadvances : r.progress.committed < plan.candidate.committed)
    (hjournal : mutateJournal r.journal plan.journal = .ok journal) {slot : Nat}
    (hslot : slot ≤ plan.candidate.committed) :
    AgreesAt journal source slot ↔
      (∃ entry ∈ entries, entry.slot = slot) ∨ AgreesAt r.journal source slot := by
  obtain ⟨hformed, hreaches, hinstalls⟩ := planNewState_commits h hadvances
  obtain ⟨end_, hend⟩ := Option.isSome_iff_exists.mp hsource.held
  have hstorable : ∀ entry ∈ entries, entry.slot + 1 < u64Bound := by
    intro entry hmem
    obtain ⟨frontier, hlast, hle⟩ := LawfulJournal.get_le (hheld entry hmem)
    have := (SegmentedLog.accepted_bound hlast).2
    omega
  have hshaped := shaped_of_suffixShapeOk hformed hstorable
  obtain ⟨hpos, -, hrun, hlength⟩ := firstSlot_of_shaped hshaped
  -- beneath the chunk as before, and the source's entries from its first slot on
  have hreads : (∀ slot ≤ plan.candidate.committed, slot < firstSlot entries through →
        Journal.get journal slot = Journal.get r.journal slot) ∧
      ∀ slot ≤ plan.candidate.committed, firstSlot entries through ≤ slot →
        AgreesAt journal source slot := by
    rcases hinstalls with hwhole | ⟨hshort, hpart⟩
    · obtain ⟨hbelow, habove⟩ :=
        checkSuffix_reads hstocked hsource hfrontier hheld hshaped hwhole hjournal
      exact ⟨fun slot _ hlt => hbelow slot hlt, fun slot hle hlow => habove slot hlow (by omega)⟩
    · unfold truncatedMutation at hpart
      simp only at hpart
      split at hpart
      · -- the fold stopped beneath the chunk
        rename_i hnothing
        rw [List.isEmpty_iff, List.filter_eq_nil_iff] at hnothing
        rw [← SuffixCheck.install.inj hpart] at hjournal
        cases hjournal
        refine ⟨fun slot _ _ => rfl, fun slot hle hlow => ?_⟩
        obtain ⟨entry, hmem, hentry, -⟩ := hrun.entryAt_mem slot hlow (by omega)
        have := hnothing entry hmem
        rw [decide_eq_true_eq] at this
        omega
      · rename_i hsome
        have hcovered : firstSlot entries through ≤ plan.candidate.committed := by
          by_contra hbeyond
          refine hsome (List.isEmpty_iff.mpr (List.filter_eq_nil_iff.mpr fun entry hmem => ?_))
          have := (hrun.mem_slot hmem).1
          rw [decide_eq_true_eq]
          omega
        obtain ⟨hpartShaped, hfirst⟩ := filter_shaped hshaped hreaches hcovered
        obtain ⟨hbelow, habove⟩ := checkSuffix_reads hstocked hsource hfrontier
          (fun entry hmem => hheld entry (List.mem_of_mem_filter hmem)) hpartShaped hpart hjournal
        rw [hfirst] at hbelow habove
        exact ⟨fun slot _ hlt => hbelow slot hlt, fun slot hle hlow => habove slot hlow hle⟩
  obtain ⟨hbelow, habove⟩ := hreads
  by_cases hlow : firstSlot entries through ≤ slot
  · obtain ⟨entry, hmem, hentry, -⟩ := hrun.entryAt_mem slot hlow (by omega)
    exact ⟨fun _ => .inl ⟨entry, hmem, hentry⟩, fun _ => habove slot hslot hlow⟩
  · have hsame : AgreesAt journal source slot ↔ AgreesAt r.journal source slot := by
      unfold AgreesAt
      rw [hbelow slot hslot (by omega)]
    rw [hsame]
    refine ⟨.inr, fun hor => hor.resolve_left fun ⟨entry, hmem, hentry⟩ => ?_⟩
    have := (hrun.mem_slot hmem).1
    omega

/-! ### A fetch and its answer -/

/-- A message of an unknown sender is dropped. -/
theorem plan_foreign {sender : Nat} {message : Message} {input : TimedInput}
    (hevent : input.event = .peer sender message)
    (hforeign : r.foreignSender sender message = true) {plan : PlannedTransition}
    (h : r.plan input = .ok plan) :
    r.dropPlan (.unknownSender sender) input.event.kind = .ok plan := by
  unfold Replica.plan at h
  split at h
  · cases h
  · simp only at h
    split at h
    · cases h
    · rw [hevent] at h ⊢
      obtain ⟨-, hpeer⟩ := refuseIfParked_ok h
      unfold planPeer at hpeer
      rwa [hforeign, if_pos rfl] at hpeer

/-- What is sent on a fetch is a run of the journal. -/
theorem step_served {sender recipient era start : Nat} {message chunk : Message}
    {input : TimedInput} (hevent : input.event = .peer sender message)
    (hbody : message.body = .getState start)
    (hsent : Effect.send recipient era chunk ∈ (r.step input).2) :
    ∃ entries through committed more, chunk.body = .newState entries through committed more ∧
      ∀ entry ∈ entries, Journal.get r.journal entry.slot = some entry := by
  have hplanned : ∃ plan, r.plan input = .ok plan ∧
      Effect.send recipient era chunk ∈ plan.effects := by
    have houtcome := step_outcome r input
    generalize r.step input = out at houtcome hsent
    cases houtcome with
    | refused => cases hsent
    | faulted fault => cases hsent
    | diverged plan hplan hlegal => cases hsent
    | parked plan hplan hfresh hstability hnone => cases List.mem_singleton.mp hsent
    | published plan journal hplan hbase hfault hlegal hjournal => exact ⟨plan, hplan, hsent⟩
  obtain ⟨plan, hplan, hsent⟩ := hplanned
  have hdrop : ∀ {diagnostic : Diagnostic} {kind : InputKind} {p : PlannedTransition},
      r.dropPlan diagnostic kind = .ok p → Effect.send recipient era chunk ∉ p.effects := by
    intro diagnostic kind p hp hmem
    obtain ⟨candidate, -, rfl⟩ := dropPlan_ok hp
    cases hmem
  by_cases hforeign : r.foreignSender sender message = true
  · exact absurd hsent (hdrop (plan_foreign hevent hforeign hplan))
  · obtain ⟨handled, hhandled, hsame⟩ :=
      plan_peerBody hevent (Bool.eq_false_iff.mpr hforeign) hplan
    have heffects : plan.effects = handled.effects := by
      rcases hsame with rfl | rfl
      · rfl
      · rfl
    rw [heffects] at hsent
    unfold planBody at hhandled
    rw [hbody] at hhandled
    simp only [planGetState] at hhandled
    split at hhandled
    · exact absurd hsent (hdrop hhandled)
    · split at hhandled
      · exact absurd hsent (hdrop hhandled)
      · exact absurd hsent (hdrop hhandled)
      · exact absurd hsent (hdrop hhandled)
      all_goals
        split at hhandled
        · exact absurd hsent (hdrop hhandled)
        · obtain ⟨candidate, -, rfl⟩ := emitPlan_ok hhandled
          cases List.mem_singleton.mp hsent
          exact ⟨_, _, _, _, rfl, (packChunk_held _ _ _ _ _).2⟩

/-- **A chunk moves the committed frontier** of a replica by its install alone. -/
theorem step_transferred {sender : Nat} {chunk : Message} {input : TimedInput}
    {entries : List LogEntry} {through committed : Nat} {more : Bool}
    (hevent : input.event = .peer sender chunk)
    (hbody : chunk.body = .newState entries through committed more)
    (hadvances : r.progress.committed < (r.step input).1.progress.committed) :
    ∃ plan, r.planNewState sender chunk entries through committed more input.event.kind = .ok plan ∧
      plan.candidate.committed = (r.step input).1.progress.committed ∧
      mutateJournal r.journal plan.journal = .ok (r.step input).1.journal ∧
      (Journal.accepted r.journal).getD Slot.none = r.progress.accepted := by
  have hfaulted : ∀ (base : Replica SegmentedLog) (fault : Fault), base.progress = r.progress →
      ¬ r.progress.committed < (base.faultNode fault).progress.committed := by
    intro base fault hprogress
    rcases faultNode_cases base fault with heq | ⟨progress, heq, hdata⟩
    · rw [heq, hprogress]
      exact Nat.lt_irrefl _
    · rw [heq]
      show ¬ r.progress.committed < progress.committed
      rw [hdata, hprogress]
      exact Nat.lt_irrefl _
  have houtcome := step_outcome r input
  generalize r.step input = out at houtcome hadvances
  cases houtcome with
  | refused => exact absurd hadvances (Nat.lt_irrefl _)
  | faulted fault => exact absurd hadvances (hfaulted r fault rfl)
  | diverged plan hplan hlegal => exact absurd hadvances (hfaulted _ _ rfl)
  | parked plan hplan hfresh hstability hnone => exact absurd hadvances (Nat.lt_irrefl _)
  | published plan journal hplan hbase hfault hlegal hjournal =>
    have hmoved : r.progress.committed < plan.candidate.committed := hadvances
    by_cases hforeign : r.foreignSender sender chunk = true
    · exact absurd hmoved (dropPlan_unmoved (plan_foreign hevent hforeign hplan))
    · obtain ⟨handled, hhandled, hsame⟩ :=
        plan_peerBody hevent (Bool.eq_false_iff.mpr hforeign) hplan
      unfold planBody at hhandled
      rw [hbody] at hhandled
      have hgate := (plan_gate hplan).2
      rcases hsame with rfl | rfl
      · exact ⟨_, hhandled, rfl, hjournal, hgate⟩
      · exact ⟨_, hhandled, rfl, hjournal, hgate⟩

end Replica

/-! ### Runs of a cluster -/

theorem Stocked.mutate {journal journal' : SegmentedLog} {mutation : JournalMutation}
    (h : Stocked journal) (hjournal : Replica.mutateJournal journal mutation = .ok journal') :
    Stocked journal' := by
  obtain ⟨hfirst, hheld⟩ := Replica.mutated_retained h.held hjournal
  exact ⟨hfirst ▸ h.first, hheld⟩

namespace Cluster

/-- Every node's journal holds entries. -/
def Stocked (c : Cluster) : Prop := ∀ node r, c.nodes node = some r → UvrrCore.Stocked r.journal

theorem provisioned_stocked (order : List Nat) (knobs : Nat → ViewChangeKnobs)
    (tailCapacity : Nat → Nat) : (provisioned order knobs tailCapacity).Stocked := by
  intro node r hr
  obtain ⟨table, journal, progress, -, hinstall, -, rfl⟩ := provisioned_node hr
  obtain ⟨-, -, hlast, hfirst, -⟩ := LawfulJournal.installSuffix_fresh rfl hinstall
  refine ⟨hfirst.ge, ?_⟩
  show (Journal.accepted journal).isSome
  rw [hlast]
  rfl

theorem Stocked.step {c : Cluster} (h : c.Stocked) (event : ClusterEvent) :
    (c.step event).Stocked := by
  intro node r' hr'
  obtain ⟨r, hr⟩ := step_node_exists hr'
  have hstocked := h node r hr
  rcases step_node hr hr' with rfl | ⟨input, -, rfl⟩ | rfl
  · exact hstocked
  · have houtcome := Replica.step_outcome r input
    generalize r.step input = out at houtcome
    cases houtcome with
    | refused => exact hstocked
    | faulted fault => rwa [Replica.faultNode_journal]
    | diverged plan hplan hlegal => rwa [Replica.faultNode_journal]
    | parked plan hplan hfresh hstability hnone => exact hstocked
    | published plan journal hplan hbase hfault hlegal hjournal => exact hstocked.mutate hjournal
  · obtain ⟨haccepted, hle⟩ := r.reclaimJournal_journal
    exact ⟨hstocked.first.trans hle, haccepted ▸ hstocked.held⟩

theorem Stocked.run {c : Cluster} (h : c.Stocked) (events : List ClusterEvent) :
    (c.run events).Stocked := by
  induction events generalizing c with
  | nil => exact h
  | cons event events ih => exact ih (h.step event)

/-- **The event answers a fetch**: a responder takes it, and sends the chunk. -/
structure Answers (c : Cluster) (event : ClusterEvent) (responder : Nat)
    (source : Replica SegmentedLog) (recipient : Nat) (chunk : Message) : Prop where
  node : c.nodes responder = some source
  served : ∃ sender message time start era,
    c.taken event = some (responder, { time := time, event := .peer sender message }) ∧
    message.body = .getState start ∧
    Effect.send recipient era chunk ∈
      (source.step { time := time, event := .peer sender message }).2

/-- **The event delivers the chunk**, and the requester's committed frontier moves. -/
structure Commits (c : Cluster) (event : ClusterEvent) (responder : Nat) (chunk : Message)
    (requester : Nat) (r r' : Replica SegmentedLog) : Prop where
  node : c.nodes requester = some r
  delivered : ∃ time,
    c.taken event = some (requester, { time := time, event := .peer responder chunk })
  after : (c.step event).nodes requester = some r'
  advances : r.progress.committed < r'.progress.committed

theorem step_taken {c : Cluster} {event : ClusterEvent} {node : Nat} {input : TimedInput}
    (h : c.taken event = some (node, input)) : c.step event = c.act node input := by
  cases event with
  | input other time event =>
    unfold step
    simp only [h]
  | deliver index time =>
    unfold step
    simp only [h]
  | reclaim other => cases h

theorem act_nodes {c : Cluster} {node : Nat} {r : Replica SegmentedLog}
    (hr : c.nodes node = some r) (input : TimedInput) :
    (c.act node input).nodes node = some (r.step input).1 := by
  unfold act
  rw [hr]
  exact if_pos rfl

/-- What a cluster has sent after a node's step and had not before is an effect of that step. -/
theorem sent_act {c : Cluster} {node index : Nat} {r : Replica SegmentedLog} {input : TimedInput}
    {envelope : Envelope} (hr : c.nodes node = some r)
    (hsent : (c.act node input).sent[index]? = some envelope) (hnew : c.sent.length ≤ index) :
    envelope.sender = node ∧
      ∃ era, Effect.send envelope.recipient era envelope.message ∈ (r.step input).2 := by
  have hmem : envelope ∈ envelopes node (r.step input).1 (r.step input).2 := by
    unfold act at hsent
    rw [hr] at hsent
    simp only [List.getElem?_append_right hnew] at hsent
    exact List.mem_of_getElem? hsent
  unfold envelopes at hmem
  obtain ⟨effect, heffect, hsome⟩ := List.mem_filterMap.mp hmem
  cases effect <;> simp only [Option.some.injEq, reduceCtorEq] at hsome
  rw [← hsome]
  exact ⟨rfl, _, heffect⟩

/-- Who answers the request an event delivers, and who takes the answer at the index: the
responder as it answers, and the requester before and after the delivery. -/
def handover (c : Cluster) (asked : ClusterEvent) (index time : Nat) :
    Option (Replica SegmentedLog × Replica SegmentedLog × Replica SegmentedLog) :=
  match c.taken asked with
  | some (responder, { event := .peer _ message, .. }) =>
    match message.body, c.nodes responder, (c.step asked).sent[index]? with
    | .getState _, some source, some envelope =>
      if c.sent.length ≤ index then
        match (c.step asked).nodes envelope.recipient,
          ((c.step asked).step (.deliver index time)).nodes envelope.recipient with
        | some r, some r' => some (source, r, r')
        | _, _ => none
      else none
    | _, _, _ => none
  | _ => none

theorem handover_spec {c : Cluster} {events : List ClusterEvent} {asked : ClusterEvent}
    {index time : Nat} {source r r' : Replica SegmentedLog}
    (h : (c.run events).handover asked index time = some (source, r, r'))
    (hadvances : r.progress.committed < r'.progress.committed) :
    ∃ responder recipient chunk, (c.run events).Answers asked responder source recipient chunk ∧
      (c.run (events ++ asked :: [])).Commits (.deliver index time) responder chunk recipient
        r r' := by
  have hrun : c.run (events ++ asked :: []) = (c.run events).step asked := List.foldl_append
  rw [hrun]
  generalize c.run events = now at h ⊢
  unfold handover at h
  split at h
  · rename_i responder start sender message htaken
    split at h
    · rename_i slot held envelope hrequest hheld hindex
      split at h
      · rename_i hnew
        split at h
        · rename_i before after hbefore hafter
          simp only [Option.some.injEq, Prod.mk.injEq] at h
          obtain ⟨rfl, rfl, rfl⟩ := h
          obtain ⟨hsender, era, hsent⟩ := sent_act hheld (step_taken htaken ▸ hindex) hnew
          refine ⟨responder, envelope.recipient, envelope.message,
            ⟨hheld, sender, message, start, slot, era, htaken, hrequest, hsent⟩,
            ⟨hbefore, ⟨time, ?_⟩, hafter, hadvances⟩⟩
          unfold taken
          simp only [hindex, hsender]
        · cases h
      · cases h
    · cases h
  · cases h

/-- **What a transferred chunk commits**: where the requester's journal agrees with the one the
responder held when it answered, up to the slot the chunk commits. -/
theorem transferred_agrees_iff (order : List Nat) (knobs : Nat → ViewChangeKnobs)
    (tailCapacity : Nat → Nat) (events later : List ClusterEvent) {asked delivered : ClusterEvent}
    {responder recipient requester : Nat} {source r r' : Replica SegmentedLog} {chunk : Message}
    (hanswers : ((provisioned order knobs tailCapacity).run events).Answers asked responder source
      recipient chunk)
    (hcommits : ((provisioned order knobs tailCapacity).run (events ++ asked :: later)).Commits
      delivered responder chunk requester r r')
    {slot : Nat} (hslot : slot ≤ r'.progress.committed) :
    AgreesAt r'.journal source.journal slot ↔
      chunk.Carries slot ∨ AgreesAt r.journal source.journal slot := by
  obtain ⟨sender, message, time, start, era, -, hrequest, hsent⟩ := hanswers.served
  obtain ⟨entries, through, committed, more, hbody, hheld⟩ :=
    Replica.step_served rfl hrequest hsent
  obtain ⟨time', htaken⟩ := hcommits.delivered
  have hstocked := (provisioned_stocked order knobs tailCapacity).run
  have hsource := hstocked events responder source hanswers.node
  have hrequester := hstocked (events ++ asked :: later) requester r hcommits.node
  have hafter := hcommits.after
  rw [step_taken htaken, act_nodes hcommits.node] at hafter
  cases hafter
  obtain ⟨plan, hplan, hcommitted, hjournal, hgate⟩ :=
    Replica.step_transferred rfl hbody hcommits.advances
  obtain ⟨frontier, hend⟩ := Option.isSome_iff_exists.mp hrequester.held
  rw [hend, Option.getD_some] at hgate
  have hcarries : chunk.Carries slot ↔ ∃ entry ∈ entries, entry.slot = slot := by
    unfold Message.Carries
    rw [hbody]
  rw [hcarries]
  exact Replica.planNewState_agrees_iff hrequester hsource (hgate ▸ hend) hheld hplan
    (hcommitted ▸ hcommits.advances) hjournal (hcommitted ▸ hslot)

/-- Node 1 commits the operation at slot 3 with node 3; node 2 takes the one at slot 4 alone, and
asks node 1 for what it misses. -/
def missedThird : List ClusterEvent :=
  [.input 1 1 .tick, .input 1 2 (.propose ⟨⟨0, 1⟩, []⟩), .input 1 2 (.propose ⟨⟨0, 2⟩, []⟩),
    .deliver 3 3, .deliver 6 4, .deliver 4 4]

theorem transferred_agrees_missed : ∃ (responder recipient : Nat)
    (source r r' : Replica SegmentedLog) (chunk : Message),
    ((provisioned [1, 2, 3] (fun _ => ⟨0, 1000⟩) fun _ => 4).run missedThird).Answers
      (.deliver 9 5) responder source recipient chunk ∧ r'.progress.committed = 3 ∧
    (AgreesAt r'.journal source.journal 3 ↔
      chunk.Carries 3 ∨ AgreesAt r.journal source.journal 3) := by
  have hcommits : (((provisioned [1, 2, 3] (fun _ => ⟨0, 1000⟩) fun _ => 4).run
      missedThird).handover (.deliver 9 5) 10 6).map (fun (_, r, r') =>
        decide (r.progress.committed < r'.progress.committed ∧ r'.progress.committed = 3)) =
        some true := by decide +kernel
  obtain ⟨⟨source, r, r'⟩, hhandover, hcommits⟩ := Option.map_eq_some_iff.mp hcommits
  obtain ⟨hadvances, hthird⟩ := of_decide_eq_true hcommits
  obtain ⟨responder, recipient, chunk, hanswers, htaken⟩ := handover_spec hhandover hadvances
  refine ⟨responder, recipient, source, r, r', chunk, hanswers, hthird, ?_⟩
  exact transferred_agrees_iff _ _ _ _ [] hanswers htaken (Nat.le_of_eq hthird.symm)

/-! ### A fetch answered after a view change -/

/-- The operation a journal holds at a slot. -/
def operationAt (journal : SegmentedLog) (slot : Nat) : Option OperationId :=
  match Journal.get journal slot with
  | some { payload := .operation id _, .. } => some id
  | _ => none

/-- Node 3 takes the operation at slot 3 in view 0, misses the next one and asks node 1 for it. Node
4 opens view 3 on the reports of nodes 2 and 5, and commits two operations of its own at slots 3
and 4 with nodes 1 and 2; node 1's journal follows it. Then the request reaches node 1. -/
def staleFetch : List ClusterEvent :=
  [.input 1 1 .tick, .input 1 2 (.propose ⟨⟨0, 1⟩, []⟩), .deliver 5 3,
    .input 1 2 (.propose ⟨⟨0, 2⟩, []⟩), .input 1 2 (.propose ⟨⟨0, 3⟩, []⟩), .deliver 14 3,
    .input 4 3 (.adminForceView ⟨1, 3⟩), .deliver 19 4, .deliver 21 4, .deliver 24 5,
    .deliver 29 5, .deliver 27 5, .deliver 25 5, .deliver 30 6, .deliver 31 6, .deliver 32 7,
    .deliver 33 7, .input 4 8 (.propose ⟨⟨0, 4⟩, []⟩), .input 4 8 (.propose ⟨⟨0, 5⟩, []⟩),
    .deliver 36 8, .deliver 37 8, .deliver 40 8, .deliver 41 8, .deliver 46 9, .deliver 47 9,
    .deliver 48 9]

/-- **A chunk of a later view commits what its requester held before**: the answer is sent in the
view of the request, and node 3, still in that view, commits its own entry at slot 3. -/
theorem staleFetch_disagrees : ¬ ∀ (order : List Nat) (knobs : Nat → ViewChangeKnobs)
    (tailCapacity : Nat → Nat) (events later : List ClusterEvent) (asked delivered : ClusterEvent)
    (responder recipient requester : Nat) (source r r' : Replica SegmentedLog) (chunk : Message),
    ((provisioned order knobs tailCapacity).run events).Answers asked responder source recipient
      chunk →
    ((provisioned order knobs tailCapacity).run (events ++ asked :: later)).Commits delivered
      responder chunk requester r r' →
    ∀ slot ≤ r'.progress.committed, AgreesAt r'.journal source.journal slot := by
  intro hall
  have hcommits : (((provisioned [1, 2, 3, 4, 5] (fun _ => ⟨0, 1000⟩) fun _ => 4).run
      staleFetch).handover (.deliver 17 10) 52 11).map (fun (source, r, r') =>
        (decide (r.progress.committed < r'.progress.committed ∧ 3 ≤ r'.progress.committed),
          operationAt r'.journal 3, operationAt source.journal 3)) =
        some (true, some ⟨0, 1⟩, some ⟨0, 4⟩) := by decide +kernel
  obtain ⟨⟨source, r, r'⟩, hhandover, hcommits⟩ := Option.map_eq_some_iff.mp hcommits
  simp only [Prod.mk.injEq, decide_eq_true_eq] at hcommits
  obtain ⟨⟨hadvances, hthird⟩, hown, hother⟩ := hcommits
  obtain ⟨responder, recipient, chunk, hanswers, htaken⟩ := handover_spec hhandover hadvances
  have hagrees := hall _ _ _ _ [] _ _ _ _ _ _ _ _ _ hanswers htaken 3 hthird
  unfold operationAt at hown hother
  split at hown
  · rename_i slot era id bytes hentry
    split at hother
    · rename_i slot' era' id' bytes' hheld
      have := hagrees _ _ hentry hheld
      cases this
      cases hown
      cases hother
    · cases hother
  · cases hown

end Cluster

end UvrrCore
