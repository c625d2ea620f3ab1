import UvrrCore.Cluster
import UvrrCore.Promise.Handlers

/-!
# The journal within one ballot

A serving replica's acknowledgements count on the strength of its journal being append-only as
long as it stays in its ballot. Every path keeps this but one: a chunk that answers an old fetch
is judged by the view and the responder of the fetch, not by the ballot the responder took its
entries from, and replaces what the replica acknowledged since.

`append_only` says when runs keep the law: when no chunk taken by a serving replica contradicts
an uncommitted entry it holds.
-/

namespace UvrrCore

/-! ### What a chunk may replace -/

section Suffix

variable {J : Type} [Journal J]

/-- An entry is the one held at its slot, if one is held. -/
def RepeatsHeld (journal : J) (entry : LogEntry) : Prop :=
  match Journal.get journal entry.slot with
  | none => True
  | some held => held = entry

instance (journal : J) (entry : LogEntry) : Decidable (RepeatsHeld journal entry) :=
  match h : Journal.get journal entry.slot with
  | none => isTrue (by simp only [RepeatsHeld, h])
  | some held => decidable_of_iff (held = entry) (by simp only [RepeatsHeld, h])

/-- Every entry offered above a frontier is the one held at its slot, where one is held. -/
def Repeats (journal : J) (committed : Nat) (entries : List LogEntry) : Prop :=
  ∀ entry ∈ entries, committed < entry.slot → RepeatsHeld journal entry

instance (journal : J) (committed : Nat) (entries : List LogEntry) :
    Decidable (Repeats journal committed entries) :=
  inferInstanceAs (Decidable (∀ entry ∈ entries, committed < entry.slot → _))

theorem Repeats.held_eq {journal : J} {committed : Nat} {entries : List LogEntry}
    (h : Repeats journal committed entries) {entry held : LogEntry} (hmem : entry ∈ entries)
    (hlt : committed < entry.slot) (hget : Journal.get journal entry.slot = some held) :
    held = entry := by
  have hrepeats := h entry hmem hlt
  unfold RepeatsHeld at hrepeats
  rw [hget] at hrepeats
  exact hrepeats

theorem scanSuffix_repeats [LawfulJournal J] {journal : J}
    {localAccepted committed discharged slot : Nat} {entries : List LogEntry}
    (hrepeats : Repeats journal committed entries)
    (h : scanSuffix journal localAccepted committed discharged entries = .differsAt slot) :
    localAccepted < slot := by
  induction entries with
  | nil => cases h
  | cons entry rest ih =>
    have hrest : Repeats journal committed rest := fun other hmem =>
      hrepeats other (List.mem_cons_of_mem _ hmem)
    simp only [scanSuffix] at h
    split at h
    · rename_i hlt
      cases h
      exact hlt
    · split at h
      · rename_i held hheld
        split at h
        · exact ih hrest h
        · rename_i hne
          split at h
          · cases h
          · rename_i habove
            exact absurd (hrepeats.held_eq List.mem_cons_self (by omega) hheld) hne
      · split at h
        · exact ih hrest h
        · cases h

/-- A history that repeats what is held installs behind the frontier. -/
theorem checkSuffix_repeats [LawfulJournal J] {r : Replica J} {entries : List LogEntry}
    {through committed discharged start : Nat} {suffix : List LogEntry}
    (hrepeats : Repeats r.journal r.progress.committed entries)
    (hahead : r.progress.accepted < through)
    (h : r.checkSuffix entries through committed discharged =
      .install (.installSuffix start suffix)) : r.progress.accepted < start := by
  unfold Replica.checkSuffix at h
  simp only at h
  split at h
  · split at h
    · cases h
    · cases h
  · split at h
    · cases h
    · split at h
      · cases h
      · cases h
      · rename_i slot hscan
        have hlt := scanSuffix_repeats hrepeats hscan
        split at h
        · split at h
          · omega
          · cases h
        · cases h
          exact hlt
      · split at h
        · split at h
          · omega
          · cases h
        · rename_i hstart
          rw [SuffixCheck.install.injEq, JournalMutation.installSuffix.injEq] at h
          have : start = (Slot.next through).getD through := h.1.symm
          unfold Slot.next at this hstart
          split at this <;> simp only [Option.getD_some, Option.getD_none] at this <;> omega

end Suffix

namespace Replica

variable {J : Type} [Journal J]

/-- What the law says of one transition. -/
def AppendsWithin (r r' : Replica J) : Prop :=
  r.progress.status = .normal → r'.progress.status = .normal →
    r'.progress.current = r.progress.current →
    (∀ slot entry, Journal.get r.journal slot = some entry →
      Journal.get r'.journal slot = some entry) ∧
    r.progress.accepted ≤ r'.progress.accepted

/-- A chunk that a serving replica takes contradicts nothing it holds above its committed
frontier. -/
def ChunkRepeats (r : Replica J) : Input → Prop
  | .peer sender message =>
    match message.body with
    | .newState entries through _ _ =>
      r.progress.status = .normal → r.chunkQualified sender message.header.view = true →
        r.progress.accepted < through → Repeats r.journal r.progress.committed entries
    | _ => True
  | _ => True

instance (r : Replica J) : (event : Input) → Decidable (r.ChunkRepeats event)
  | .peer sender message =>
    match h : message.body with
    | .newState entries through _ _ =>
      decidable_of_iff
        (r.progress.status = .normal → r.chunkQualified sender message.header.view = true →
          r.progress.accepted < through → Repeats r.journal r.progress.committed entries)
        (by simp only [ChunkRepeats, h])
    | .prepare .. | .prepareOk | .commit .. | .startViewChange | .doViewChange .. | .startView ..
    | .plannedViewChange | .getState .. | .reincarnation .. | .fuse .. | .fuseOk ..
    | .commitBatch .. | .gossipRequest .. => isTrue (by simp only [ChunkRepeats, h])
  | .propose _ | .tick | .stabilityConfirmation _ _ | .applied _ | .checkpointed _
  | .reconfigure _ _ | .adminForceView _ | .reincarnate _ | .submitPlan _ => isTrue trivial

theorem ChunkRepeats.repeats {r : Replica J} {sender : Nat} {message : Message}
    {entries : List LogEntry} {through committed : Nat} {more : Bool}
    (h : r.ChunkRepeats (.peer sender message))
    (hbody : message.body = .newState entries through committed more)
    (hserving : r.progress.status = .normal)
    (hqualified : r.chunkQualified sender message.header.view = true)
    (hahead : r.progress.accepted < through) :
    Repeats r.journal r.progress.committed entries := by
  simp only [ChunkRepeats, hbody] at h
  exact h hserving hqualified hahead

/-- What a replica of a volatile host is between transitions. -/
structure Settled (r : Replica J) : Prop where
  composed : r.Composed
  unparked : r.parked = none
  volatile : r.stability = .volatile

/-- A mutation at or behind the frontier keeps every held entry. -/
theorem mutateJournal_keeps [LawfulJournal J] {journal journal' : J} {mutation : JournalMutation}
    {accepted : Nat} (hfrontier : (Journal.accepted journal).getD Slot.none = accepted)
    (hbehind : ∀ start suffix, mutation = .installSuffix start suffix → accepted < start)
    (h : mutateJournal journal mutation = .ok journal') {slot : Nat} {entry : LogEntry}
    (hget : Journal.get journal slot = some entry) : Journal.get journal' slot = some entry := by
  obtain ⟨frontier, haccepted, hle⟩ := LawfulJournal.get_le hget
  rw [haccepted, Option.getD_some] at hfrontier
  cases mutation with
  | none =>
    cases h
    exact hget
  | accept entries =>
    cases entries with
    | nil =>
      have := LawfulJournal.accept_nil (j := journal)
      rw [show mutateJournal journal (.accept []) = Journal.accept journal [] from rfl, this] at h
      cases h
      exact hget
    | cons first rest =>
      obtain ⟨-, -, -, hread⟩ := LawfulJournal.accept_ok haccepted h
      rw [hread, if_pos hle]
      exact hget
  | installSuffix start suffix =>
    have hlt := hbehind start suffix rfl
    obtain ⟨-, -, -, -, -, hread⟩ := LawfulJournal.installSuffix_ok haccepted h
    rw [hread, if_pos (by omega)]
    exact hget

theorem planPeer_qualified {r : Replica J} {sender : Nat} {message : Message}
    {entries : List LogEntry} {through committed : Nat} {more : Bool} {time : Nat}
    {kind : InputKind} {plan : PlannedTransition}
    (hbody : message.body = .newState entries through committed more)
    (h : r.planPeer sender message time kind = .ok plan) (hjournal : plan.journal ≠ .none) :
    r.chunkQualified sender message.header.view = true := by
  unfold planPeer at h
  split at h
  · obtain ⟨candidate, -, rfl⟩ := dropPlan_ok h
    exact absurd rfl hjournal
  · obtain ⟨p, hp, h⟩ := bind_eq_ok.mp h
    have hsame : plan.journal = p.journal := by
      cases pure_eq_ok.mp h
      split <;> rfl
    rw [hsame] at hjournal
    unfold planBody at hp
    rw [hbody] at hp
    cases planNewState_cases hp with
    | dropped _ hdrop =>
      obtain ⟨candidate, -, rfl⟩ := dropPlan_ok hdrop
      exact absurd rfl hjournal
    | breached hbreach =>
      obtain ⟨candidate, -, rfl⟩ := breachPlan_ok hbreach
      exact absurd rfl hjournal
    | closed emitted hemit hplan =>
      obtain ⟨candidate, -, rfl⟩ := emitPlan_ok hemit
      subst hplan
      exact absurd rfl hjournal
    | installed record _ _ _ hqualified _ _ whole _ folded _ mutation _ _ => exact hqualified

/-- **One input keeps the journal append-only** within a ballot, when no chunk contradicts it. -/
theorem Settled.step [LawfulJournal J] {r : Replica J} (hr : r.Settled) (input : TimedInput)
    (hchunk : r.ChunkRepeats input.event) :
    (r.step input).1.Settled ∧ r.AppendsWithin (r.step input).1 := by
  have hout := step_outcome r input
  generalize r.step input = out at hout
  have hquiet : ∀ r' : Replica J, r'.journal = r.journal →
      r.progress.accepted ≤ r'.progress.accepted → r.AppendsWithin r' := by
    intro r' hjournal hle _ _ _
    exact ⟨fun slot entry hget => by rw [hjournal]; exact hget, hle⟩
  have hfault : ∀ (base : Replica J) (fault : Fault), base.Settled →
      base.journal = r.journal → base.progress = r.progress →
      (base.faultNode fault).Settled ∧ r.AppendsWithin (base.faultNode fault) := by
    intro base fault hbase hjournal hprogress
    rcases faultNode_cases base fault with heq | ⟨progress, heq, hdata⟩
    · rw [heq]
      exact ⟨hbase, hquiet base hjournal (by rw [hprogress])⟩
    · rw [heq]
      refine ⟨⟨⟨fun attempt hv => ?_, fun hp => ?_⟩, hbase.unparked, hbase.volatile⟩,
        hquiet _ hjournal ?_⟩
      · rw [hdata]
        exact hbase.composed.attempt attempt hv
      · rw [hdata]
        exact hbase.composed.overlap hp
      · show r.progress.accepted ≤ progress.accepted
        rw [hdata, hprogress]
  cases hout with
  | refused => exact ⟨hr, hquiet r rfl (Nat.le_refl _)⟩
  | faulted fault => exact hfault r fault hr rfl rfl
  | diverged plan hplan hlegal =>
    exact hfault { r with parked := none } _ ⟨hr.composed, rfl, hr.volatile⟩ rfl rfl
  | parked plan hplan hfresh hstability hnone => exact absurd hr.volatile hstability
  | published plan journal hplan hbase hnofault hlegal hjournal =>
    have hpromising := plan_promising hr.composed (fresh_of_unparked hr.unparked hplan) hplan
    refine ⟨⟨hpromising.composed, rfl, hr.volatile⟩, fun hserving hserving' hcurrent => ?_⟩
    have hcurrent' : plan.candidate.current = r.progress.current := hcurrent
    have hbehind : ∀ start suffix, plan.journal = .installSuffix start suffix →
        r.progress.accepted < start := by
      intro start suffix hinstall
      rcases plan_cases hr.composed (fresh_of_unparked hr.unparked hplan) hplan with
        hkept | ⟨sender, message, entries, through, committed, more, hevent, hbody, hpeer⟩
      · rcases hkept.replaces start suffix hinstall with hfenced | hmoved
        · exact absurd hserving hfenced
        · exact absurd hcurrent' hmoved
      · rcases (planPeer_newState hr.composed hbody hpeer).2 hserving with
          hnone | ⟨hahead, hcheck⟩
        · rw [hinstall] at hnone
          cases hnone
        · have hqualified := planPeer_qualified hbody hpeer (by rw [hinstall]; simp)
          rw [hevent] at hchunk
          have hrepeats := hchunk.repeats hbody hserving hqualified hahead
          rw [hinstall] at hcheck
          exact checkSuffix_repeats hrepeats hahead hcheck
    have hretained : plan.candidate.retained = r.progress.retained := by
      rw [← Progress.current_eq_retained (p := plan.candidate) hserving',
        ← r.progress.current_eq_retained hserving, hcurrent']
    exact ⟨fun slot entry hget =>
      mutateJournal_keeps (plan_gate hplan).2 hbehind hjournal hget,
      accepted_le_of_legal hlegal hretained⟩

end Replica

/-! ### Runs of a cluster -/

namespace Cluster

/-- **The law**, of one step: a replica that serves the same ballot before and after it still
holds what it held, but for what it may reclaim, and its frontier is not moved back. -/
def AppendOnlyStep (c : Cluster) (event : ClusterEvent) : Prop :=
  ∀ node r r', c.nodes node = some r → (c.step event).nodes node = some r' →
    r.progress.status = .normal → r'.progress.status = .normal →
    r'.progress.current = r.progress.current →
    (∀ slot entry, Journal.get r.journal slot = some entry →
      Journal.get r'.journal slot = some entry ∨
        (Journal.get r'.journal slot = none ∧ slot ≤ r'.progress.checkpoint)) ∧
    r.progress.accepted ≤ r'.progress.accepted

/-- No chunk a serving replica takes contradicts an uncommitted entry it holds. -/
def NoOverwrite (c : Cluster) (event : ClusterEvent) : Prop :=
  match c.taken event with
  | none => True
  | some (node, input) =>
    match c.nodes node with
    | none => True
    | some r => r.ChunkRepeats input.event

instance (c : Cluster) (event : ClusterEvent) : Decidable (c.NoOverwrite event) :=
  match h : c.taken event with
  | none => isTrue (by simp only [NoOverwrite, h])
  | some (node, input) =>
    match hr : c.nodes node with
    | none => isTrue (by simp only [NoOverwrite, h, hr])
    | some r =>
      decidable_of_iff (r.ChunkRepeats input.event) (by simp only [NoOverwrite, h, hr])

/-- Every replica is between transitions. -/
def Settled (c : Cluster) : Prop := ∀ node r, c.nodes node = some r → r.Settled

theorem provisioned_settled (order : List Nat) (knobs : Nat → ViewChangeKnobs)
    (tailCapacity : Nat → Nat) : (provisioned order knobs tailCapacity).Settled := by
  intro node r hr
  obtain ⟨table, journal, progress, -, -, -, rfl⟩ := provisioned_node hr
  exact ⟨⟨fun _ hattempt => (nomatch hattempt), fun hplanned => (nomatch hplanned)⟩, rfl, rfl⟩

theorem reclaimJournal_appends (r : Replica SegmentedLog) {slot : Nat} {entry : LogEntry}
    (hget : Journal.get r.journal slot = some entry) :
    Journal.get r.reclaimJournal.journal slot = some entry ∨
      (Journal.get r.reclaimJournal.journal slot = none ∧
        slot ≤ r.reclaimJournal.progress.checkpoint) := by
  unfold Replica.reclaimJournal
  split
  · exact Or.inl hget
  · obtain ⟨-, first, hfirst, hge, -, hread⟩ :=
      r.journal.reclaimThrough_spec r.progress.checkpoint
    have hheld : (Journal.retained r.journal).1 ≤ slot := by
      by_contra hlt
      rw [LawfulJournal.get_lt_first (by omega)] at hget
      cases hget
    by_cases hbelow : slot < first
    · refine Or.inr ⟨?_, ?_⟩
      · show Journal.get (r.journal.reclaimThrough r.progress.checkpoint) slot = none
        rw [hread, if_pos hbelow]
      · show slot ≤ r.progress.checkpoint
        rcases hfirst with heq | hle
        · omega
        · omega
    · refine Or.inl ?_
      show Journal.get (r.journal.reclaimThrough r.progress.checkpoint) slot = some entry
      rw [hread, if_neg hbelow]
      exact hget

theorem Settled.step {c : Cluster} (hc : c.Settled) (event : ClusterEvent)
    (h : c.NoOverwrite event) : (c.step event).Settled ∧ c.AppendOnlyStep event := by
  -- One replica changes at most, and it keeps the law.
  have hone : ∀ node r r', c.nodes node = some r → (c.step event).nodes node = some r' →
      r'.Settled ∧ (r.progress.status = .normal → r'.progress.status = .normal →
        r'.progress.current = r.progress.current →
        (∀ slot entry, Journal.get r.journal slot = some entry →
          Journal.get r'.journal slot = some entry ∨
            (Journal.get r'.journal slot = none ∧ slot ≤ r'.progress.checkpoint)) ∧
        r.progress.accepted ≤ r'.progress.accepted) := by
    intro node r r' hr hr'
    rcases step_node hr hr' with heq | ⟨input, htaken, rfl⟩ | rfl
    · rw [heq]
      exact ⟨hc node r hr, fun _ _ _ => ⟨fun _ _ hget => Or.inl hget, Nat.le_refl _⟩⟩
    · simp only [NoOverwrite, htaken, hr] at h
      obtain ⟨hsettled, happends⟩ := (hc node r hr).step input h
      refine ⟨hsettled, fun hserving hserving' hcurrent => ?_⟩
      obtain ⟨hkeeps, hle⟩ := happends hserving hserving' hcurrent
      exact ⟨fun slot entry hget => Or.inl (hkeeps slot entry hget), hle⟩
    · have hsettled := hc node r hr
      refine ⟨?_, fun _ _ _ => ⟨fun _ _ hget => reclaimJournal_appends r hget, ?_⟩⟩
      · unfold Replica.reclaimJournal
        split
        · exact hsettled
        · exact ⟨⟨hsettled.composed.attempt, hsettled.composed.overlap⟩, hsettled.unparked,
            hsettled.volatile⟩
      · rw [reclaimJournal_progress]
  refine ⟨fun node r' hr' => ?_, fun node r r' hr hr' => (hone node r r' hr hr').2⟩
  obtain ⟨r, hr⟩ := step_node_exists hr'
  exact (hone node r r' hr hr').1

/-- **Within one ballot the journal is append-only**, in every run no chunk of which contradicts
what a serving replica holds. -/
theorem append_only (order : List Nat) (knobs : Nat → ViewChangeKnobs)
    (tailCapacity : Nat → Nat) (events : List ClusterEvent)
    (h : Along NoOverwrite (provisioned order knobs tailCapacity) events) :
    Along AppendOnlyStep (provisioned order knobs tailCapacity) events :=
  along_of_step (fun _ event hc hno => hc.step event hno)
    (provisioned_settled order knobs tailCapacity) h

/-- A chunk that is taken: node 3 serves, misses slot 3 and asks the primary for it. -/
theorem append_only_transferred :
    Along AppendOnlyStep (provisioned [1, 2, 3] (fun _ => ⟨0, 1000⟩) fun _ => 4)
      [.input 1 1 .tick, .deliver 1 2, .input 1 3 (.propose ⟨⟨0, 1⟩, []⟩),
        .input 1 4 (.propose ⟨⟨0, 2⟩, []⟩), .deliver 5 5, .deliver 6 6, .deliver 7 7] :=
  append_only [1, 2, 3] (fun _ => ⟨0, 1000⟩) (fun _ => 4) _ (by decide +kernel)

/-! ### A stale chunk -/

/-- The entry a serving replica holds at a slot above its checkpoint is another after a step of
its ballot. -/
def replacedAt (c : Cluster) (event : ClusterEvent) (node slot : Nat) : Bool :=
  match c.nodes node, (c.step event).nodes node with
  | some r, some r' =>
    match Journal.get r.journal slot, Journal.get r'.journal slot with
    | some held, some other =>
      r.progress.status == .normal && r'.progress.status == .normal &&
        r'.progress.current == r.progress.current && held != other
    | _, _ => false
  | _, _ => false

theorem not_appendOnlyStep_of_replacedAt {c : Cluster} {event : ClusterEvent} {node slot : Nat}
    (h : c.replacedAt event node slot = true) : ¬c.AppendOnlyStep event := by
  intro hlaw
  unfold replacedAt at h
  split at h
  · rename_i r r' hr hr'
    split at h
    · rename_i held other hheld hother
      simp only [Bool.and_eq_true, beq_iff_eq, bne_iff_ne, ne_eq] at h
      obtain ⟨⟨⟨hserving, hserving'⟩, hcurrent⟩, hne⟩ := h
      rcases (hlaw node r r' hr hr' hserving hserving' hcurrent).1 slot held hheld with
        hkept | ⟨hgone, -⟩
      · rw [hother] at hkept
        exact hne (Option.some.inj hkept).symm
      · rw [hother] at hgone
        cases hgone
    · cases h
  · cases h

/-- Node 3 misses slot 3 of view 0, asks node 1 for it, and acknowledges the primary's
retransmission meanwhile. View 3 elects node 4 without either entry, and node 1 follows it. Its
answer to the old fetch replaces what node 3, still serving view 0, has acknowledged. -/
theorem acknowledged_entry_replaced :
    ¬∀ order knobs tailCapacity events,
      Along AppendOnlyStep (provisioned order knobs tailCapacity) events := by
  intro h
  have hrun := h [1, 2, 3, 4, 5] (fun _ => ⟨0, 1000⟩) (fun _ => 4)
    ([.input 1 1 .tick, .input 1 2 (.propose ⟨⟨0, 1⟩, []⟩), .input 1 2 (.propose ⟨⟨0, 2⟩, []⟩),
      .deliver 9 3, .deliver 5 3, .input 4 3 (.adminForceView ⟨1, 3⟩), .deliver 15 4,
      .deliver 17 4, .deliver 21 4, .deliver 23 4, .deliver 20 4, .deliver 25 4, .deliver 26 5,
      .deliver 27 5, .deliver 28 5, .input 4 6 (.propose ⟨⟨0, 3⟩, []⟩),
      .input 4 6 (.propose ⟨⟨0, 4⟩, []⟩), .deliver 32 6, .deliver 36 6, .deliver 12 6] ++
      [.deliver 42 7])
  have hlast := (along_append.mp hrun).2.1
  have hreplaced :
      replacedAt
        ((provisioned [1, 2, 3, 4, 5] (fun _ => ⟨0, 1000⟩) fun _ => 4).run
          [.input 1 1 .tick, .input 1 2 (.propose ⟨⟨0, 1⟩, []⟩),
            .input 1 2 (.propose ⟨⟨0, 2⟩, []⟩), .deliver 9 3, .deliver 5 3,
            .input 4 3 (.adminForceView ⟨1, 3⟩), .deliver 15 4, .deliver 17 4, .deliver 21 4,
            .deliver 23 4, .deliver 20 4, .deliver 25 4, .deliver 26 5, .deliver 27 5,
            .deliver 28 5, .input 4 6 (.propose ⟨⟨0, 3⟩, []⟩),
            .input 4 6 (.propose ⟨⟨0, 4⟩, []⟩), .deliver 32 6, .deliver 36 6, .deliver 12 6])
        (.deliver 42 7) 3 3 = true := by
    decide +kernel
  exact not_appendOnlyStep_of_replacedAt hreplaced hlast

end Cluster

end UvrrCore
