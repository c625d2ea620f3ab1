import UvrrCore.Chunks
import UvrrCore.Minted

/-!
# Every operation was proposed

Whatever a replica journals beside what it was offered, it was sent or held, and whatever it sends,
it holds. So an operation found anywhere in a cluster, in a journal, in a message or among the
effects, was proposed before, and it is at the slot that was free then. A replica releases a slot
once; so it releases an operation no more often than it was proposed.

`Supplied` is a condition on all that a replica has to send or release from, and of what the
replicas of a cluster, its messages and its releases meet.

## Main results

* `Cluster.operations_proposed`: in every run, every operation anywhere was proposed for its slot.
* `Cluster.applied_at_most`: no node applies an operation more often than it was proposed.
-/

namespace UvrrCore

variable {Q : Nat → OperationId → List UInt8 → Prop}

/-- What the entries of any other message meet. -/
def Message.Copies (Q : Nat → OperationId → List UInt8 → Prop) (message : Message) : Prop :=
  (∀ entry committed, message.body ≠ .prepare entry committed) →
    ∀ entry ∈ message.entries, entry.Sourced Q

theorem Message.entries_sourced {message : Message} (hprepares : message.Prepares Q)
    (hcopies : message.Copies Q) : ∀ entry ∈ message.entries, entry.Sourced Q := by
  cases hbody : message.body with
  | prepare entry committed =>
    intro other hmem
    rw [Message.entries, hbody] at hmem
    rw [List.mem_singleton.mp hmem]
    exact hprepares entry committed hbody
  | _ =>
    refine hcopies fun entry committed hprepare => ?_
    rw [hbody] at hprepare
    cases hprepare

namespace Replica

variable {J : Type} [Journal J] {r : Replica J} {plan : PlannedTransition}

/-! ### What a replica has -/

/-- **What a replica has to send and to release from** meets the condition: the entries of its
journal, of the reports it collects and of the offer it retains. Nothing is parked. -/
structure Supplied (Q : Nat → OperationId → List UInt8 → Prop) (r : Replica J) : Prop where
  volatile : r.stability = .volatile
  unparked : r.parked = none
  reached : r.Reached
  journal : ∀ slot entry, Journal.get r.journal slot = some entry → entry.Sourced Q
  attempt : ∀ attempt, r.viewChange = some attempt → attempt.Reported (Sourced Q)
  offer : ∀ offer, r.stalled = some offer → ∀ entry ∈ offer.message.entries, entry.Sourced Q

theorem journalTail_sourced {journal : J}
    (h : ∀ slot entry, Journal.get journal slot = some entry → entry.Sourced Q)
    (budget cursor bytes : Nat) : Sourced Q (journalTail journal budget cursor bytes) cursor := by
  induction cursor generalizing bytes with
  | zero =>
    unfold journalTail journalTail.tailAt
    simp only
    split
    · exact sourced_nil _
    · split
      · exact sourced_nil _
      · rename_i entry hget
        split
        · exact sourced_nil _
        · intro other hmem
          rw [List.nil_append, List.mem_singleton] at hmem
          rw [hmem]
          exact h 0 entry hget
  | succ cursor ih =>
    unfold journalTail journalTail.tailAt
    simp only
    split
    · exact sourced_nil _
    · split
      · exact sourced_nil _
      · rename_i entry hget
        split
        · exact sourced_nil _
        · intro other hmem
          rcases List.mem_append.mp hmem with hmem | hmem
          · exact ih _ other hmem
          · rw [List.mem_singleton.mp hmem]
            exact h _ entry hget

theorem Supplied.boundedSuffix (h : r.Supplied Q) {overlay : List LogEntry} {frontier : Nat}
    (hoverlay : Sourced Q overlay frontier) :
    Sourced Q (r.boundedSuffix frontier overlay) frontier := by
  unfold Replica.boundedSuffix
  simp only
  have hpicked := takeFitting_spec r.knobs.viewChangeBudget 0 overlay.reverse
  generalize takeFitting r.knobs.viewChangeBudget 0 overlay.reverse = fitting at hpicked
  intro entry hmem
  rcases List.mem_append.mp hmem with hmem | hmem
  · split at hmem
    · exact journalTail_sourced h.journal _ _ _ entry hmem
    · cases hmem
  · exact hoverlay entry (List.mem_reverse.mp (hpicked.subset (List.mem_reverse.mp hmem)))

theorem Supplied.ownEvidence (h : r.Supplied Q) :
    Sourced Q r.ownEvidence.suffix r.ownEvidence.accepted := by
  refine h.boundedSuffix (show Sourced Q [] _ from ?_)
  intro _ hmem
  cases hmem

/-! ### What it sends -/

variable [LawfulJournal J]

theorem Supplied.licence (h : r.Supplied Q) :
    r.Licence (Sourced Q) fun _ message => message.Copies Q where
  plain := by
    intro record message hplain hother entry hmem
    rw [Message.entries] at hmem
    cases hbody : message.body with
    | prepare prepared committed => exact absurd hbody (hother prepared committed)
    | prepareOk | startViewChange | doViewChange | startView | newState =>
      rw [hbody] at hplain
      cases hplain
    | _ =>
      rw [hbody] at hmem
      cases hmem
  acknowledges _ _ _ hmem := nomatch hmem
  fences _ _ _ hmem := nomatch hmem
  reports := by
    intro record message retained accepted committed suffix kind proof hbody hsuffix _ entry hmem
    rw [Message.entries, hbody] at hmem
    exact hsuffix entry hmem
  announces _ hsuffix _ entry hmem := hsuffix entry hmem
  serves := by
    intro record header budget left slot bytes through committed more _ entry hmem
    exact h.journal entry.slot entry
      ((packChunk_held r.journal budget left slot bytes).2 entry hmem)
  packs := h.boundedSuffix
  bare _ hmem := nomatch hmem
  collected := h.attempt

/-- **What a plan of a fresh input sends** was offered or held. -/
theorem Supplied.sends (h : r.Supplied Q) {input : TimedInput} (hbrings : r.Brings Q input.event)
    (hfresh : ∀ revision result, input.event ≠ .stabilityConfirmation revision result)
    (hplan : r.plan input = .ok plan) :
    Sending (fun message => ∀ entry ∈ message.entries, entry.Sourced Q) plan.effects := by
  have hprepares := (plan_mints hbrings hfresh hplan).prepares
  have hcopies : Speaks (fun _ message => message.Copies Q) plan := by
    refine plan_speaks h.licence (fun sender message hevent => ?_) hfresh hplan
    intro retained accepted committed suffix kind proof hbody entry hmem
    rw [hevent] at hbrings
    refine hbrings entry ?_
    rw [Message.entries, hbody]
    exact hmem
  intro effect hmem
  have hprepare := hprepares effect hmem
  have hcopy := hcopies effect hmem
  cases effect with
  | send recipient era message => exact Message.entries_sourced hprepare hcopy
  | _ => trivial

/-! ### What it journals and releases -/

/-- What is given of an input whose entries meet the condition. -/
def sourcingGiven (Q : Nat → OperationId → List UInt8 → Prop) (input : TimedInput) : Given where
  shape := Sourced Q
  shorter := fun _ _ => True
  kept := fun message => ∀ entry ∈ message.entries, entry.Sourced Q
  uncut := False
  width := input.event.appends
  acknowledges := True

omit [Journal J] [LawfulJournal J] in
theorem admits_sourced {input : TimedInput} {message : Message}
    (h : ∀ entry ∈ message.entries, entry.Sourced Q) : (sourcingGiven Q input).Admits message := by
  unfold Given.Admits
  rw [Message.entries] at h
  cases hbody : message.body with
  | doViewChange | startView | newState =>
    rw [hbody] at h
    exact fun _ => h
  | _ => trivial

omit [LawfulJournal J] in
theorem Supplied.holds (h : r.Supplied Q) {input : TimedInput} (hbrings : r.Brings Q input.event) :
    r.Holds (sourcingGiven Q input) input where
  reported := ⟨h.ownEvidence, h.attempt⟩
  offer := fun offer hstalled =>
    ⟨h.offer offer hstalled, admits_sourced (h.offer offer hstalled)⟩
  message := by
    intro sender message hevent
    rw [hevent] at hbrings
    exact ⟨hbrings, admits_sourced hbrings⟩
  views := fitViews_of_any fun _ _ => trivial
  uncut := fun hfalse => hfalse.elim
  width := Nat.le_refl _
  acknowledges := fun _ => trivial

omit [LawfulJournal J] in
/-- What a rewrite writes, and the overlay it goes with. -/
theorem Rewrite.sourced {input : TimedInput} {overlay : List LogEntry} {covered accepted : Nat}
    {mutation : JournalMutation}
    (h : r.Rewrite (sourcingGiven Q input) overlay covered mutation accepted)
    (hmints : ∀ entries, mutation = .accept entries → ∀ entry ∈ entries, entry.Sourced Q) :
    (∀ entry ∈ mutation.written, entry.Sourced Q) ∧ ∀ entry ∈ overlay, entry.Sourced Q := by
  cases h with
  | kept hoverlay =>
    rw [hoverlay]
    exact ⟨nofun, nofun⟩
  | @appended entries last hoverlay hrun hlast hwidth =>
    have hentries := hmints entries rfl
    refine ⟨hentries, ?_⟩
    rcases hoverlay with rfl | rfl
    · exact nofun
    · exact hentries
  | spliced hshape hcheck hdischarged hshorter =>
    exact ⟨fun entry hmem => hshape entry ((checkSuffix_copies hcheck).2 hmem), hshape⟩
  | truncated hboot hcut hshape hwhole hshort hcheck =>
    exact ⟨fun entry hmem => hshape entry ((truncatedMutation_copies hcheck).2 hmem), hshape⟩

/-- What is applied is at the slot it was read from, and each slot is applied once. -/
theorem applyRange_ascending {read : Nat → Option LogEntry} {left slot : Nat}
    {effects : List Effect} (h : applyRange read left slot = .ok effects) :
    (effects.filterMap Effect.appliedSlot).Pairwise (· < ·) := by
  induction left generalizing slot effects with
  | zero =>
    cases h
    exact .nil
  | succ left ih =>
    simp only [applyRange] at h
    split at h
    · cases h
    · obtain ⟨rest, hrest, h⟩ := bind_eq_ok.mp h
      split at h
      · cases pure_eq_ok.mp h
        refine List.pairwise_cons.mpr ⟨fun later hmem => ?_, ih hrest⟩
        obtain ⟨effect, heffect, hslot⟩ := List.mem_filterMap.mp hmem
        obtain ⟨at_, entry, id, payload, rfl, hlow, -⟩ := applyRange_mem hrest heffect
        cases hslot
        exact hlow
      · cases pure_eq_ok.mp h
        exact ih hrest

/-- **What a commit releases**: operations of the slots it newly commits, each once. -/
structure Releases (Q : Nat → OperationId → List UInt8 → Prop) (committed committed' : Nat)
    (effects : List Effect) : Prop where
  forward : committed ≤ committed'
  applied : ∀ slot id payload, Effect.apply slot id payload ∈ effects →
    Q slot id payload ∧ committed < slot ∧ slot ≤ committed'
  ascending : (effects.filterMap Effect.appliedSlot).Pairwise (· < ·)

omit [Journal J] [LawfulJournal J] in
theorem Releases.nothing (committed : Nat) : Releases Q committed committed [] :=
  ⟨Nat.le_refl _, nofun, .nil⟩

omit [LawfulJournal J] in
theorem Supplied.merged (h : r.Supplied Q) {overlay : List LogEntry} {slot : Nat}
    {entry : LogEntry} (hoverlay : ∀ entry ∈ overlay, entry.Sourced Q)
    (hread : merged r.journal overlay slot = some entry) : entry.Sourced Q := by
  unfold UvrrCore.merged at hread
  split at hread
  · rename_i held hheld
    cases hread
    exact hoverlay entry (List.mem_of_find?_eq_some hheld)
  · exact h.journal slot entry hread

theorem Supplied.releases (h : r.Supplied Q) {input : TimedInput} {next : ProgressData}
    {mutation : JournalMutation} {applies : List Effect}
    (hadvance : r.Advance (sourcingGiven Q input) next mutation applies)
    (hmints : ∀ entries, mutation = .accept entries → ∀ entry ∈ entries, entry.Sourced Q) :
    (∀ entry ∈ mutation.written, entry.Sourced Q) ∧
      Releases Q r.progress.committed next.committed applies := by
  cases hadvance with
  | still hcommitted happlied hconfig happlies hrewrite =>
    rw [happlies, hcommitted]
    exact ⟨(hrewrite.sourced hmints).1, .nothing _⟩
  | @commit overlay seen through paced folded hfold hcommitted happlied hconfig hseen happlies
      hrewrite =>
    obtain ⟨hwritten, hoverlay⟩ := hrewrite.sourced hmints
    refine ⟨hwritten, ?_⟩
    obtain ⟨end_, hend, rfl⟩ := foldCommitted_ok hfold
    have hforward : r.progress.committed ≤ end_.covered := (foldSlotsThrough_covers hend).1
    have hread : ∀ entry ∈ seen, entry.Sourced Q := by
      rcases hseen with rfl | ⟨rfl, -⟩
      · exact hoverlay
      · exact nofun
    rw [hcommitted]
    refine ⟨hforward, fun slot id payload hmem => ?_, applyRange_ascending happlies⟩
    obtain ⟨at_, entry, id', payload', heq, hlow, hhigh, hmerged, hpayload⟩ :=
      applyRange_mem happlies hmem
    cases heq
    refine ⟨?_, hlow, hhigh.trans (Nat.add_sub_cancel' hforward).le⟩
    rw [← merged_slot hmerged]
    exact h.merged hread hmerged _ _ hpayload

/-! ### One step -/

/-- **What a step keeps and lets out.** -/
structure Supplies (Q : Nat → OperationId → List UInt8 → Prop) (r r' : Replica J)
    (effects : List Effect) : Prop where
  supplied : r'.Supplied Q
  sent : Sending (fun message => ∀ entry ∈ message.entries, entry.Sourced Q) effects
  releases : Releases Q r.progress.committed r'.progress.committed effects

omit [LawfulJournal J] in
/-- A step that lets nothing out. -/
theorem Supplied.still (h : r.Supplied Q) {fault : Fault} (hreached : (r.faultNode fault).Reached) :
    Supplies Q r (r.faultNode fault) [] := by
  rcases faultNode_cases r fault with heq | ⟨progress, heq, hdata⟩
  · rw [heq]
    exact ⟨h, .nil, .nothing _⟩
  · rw [heq]
    have hcommitted : progress.committed = r.progress.committed := by rw [hdata]
    refine ⟨⟨h.volatile, h.unparked, heq ▸ hreached, h.journal, h.attempt, h.offer⟩, .nil, ?_⟩
    show Releases Q r.progress.committed progress.committed []
    rw [hcommitted]
    exact .nothing _

omit [LawfulJournal J] in
theorem Releases.of_filter {committed committed' : Nat} {effects : List Effect}
    (h : Releases Q committed committed' (effects.filter Effect.isApply)) :
    Releases Q committed committed' effects := by
  refine ⟨h.forward, fun slot id payload hmem => h.applied slot id payload ?_, ?_⟩
  · exact List.mem_filter.mpr ⟨hmem, rfl⟩
  · have hslots : (effects.filter Effect.isApply).filterMap Effect.appliedSlot =
        effects.filterMap Effect.appliedSlot := by
      rw [List.filterMap_filter]
      congr 1
      funext effect
      cases effect <;> rfl
    exact hslots ▸ h.ascending

omit [Journal J] [LawfulJournal J] in
/-- The offer retained behind a transition is the one before, or the one the transition notes. -/
theorem installed_stalled {P : StalledStartView → Prop} {journal : J}
    (hold : ∀ offer, r.stalled = some offer → P offer)
    (hnoted : ∀ offer, plan.bookkeeping.stalled = .set offer → P offer) :
    ∀ offer, (r.installed plan journal).stalled = some offer → P offer := by
  intro offer hsome
  have hupdate : plan.bookkeeping.stalled.applyTo r.stalled = some offer := hsome
  cases hstalled : plan.bookkeeping.stalled with
  | unchanged =>
    rw [hstalled] at hupdate
    exact hold offer hupdate
  | set value =>
    rw [hstalled] at hupdate
    cases hupdate
    exact hnoted _ hstalled
  | clear =>
    rw [hstalled] at hupdate
    cases hupdate

/-- **One step**: what was offered and held is all that it holds and lets out. -/
theorem Supplied.step (h : r.Supplied Q) {input : TimedInput} (hbrings : r.Brings Q input.event) :
    Supplies Q r (r.step input).1 (r.step input).2 := by
  have hvolatile := (step_stability r input).trans h.volatile
  have hreached : (r.step input).1.Reached := .step h.reached input
  obtain ⟨frontier, hfrontier⟩ := Option.isSome_iff_exists.mp h.reached.founded.frontier
  have houtcome := step_outcome r input
  generalize r.step input = out at houtcome hvolatile hreached
  cases houtcome with
  | refused => exact ⟨h, .nil, .nothing _⟩
  | faulted fault => exact h.still hreached
  | diverged plan hplan hlegal =>
    have hsame : ({ r with parked := none } : Replica J) = r := by
      rw [← h.unparked]
    rw [hsame] at hreached ⊢
    exact h.still hreached
  | parked plan hplan hcompletion hstability hnone => exact absurd h.volatile hstability
  | published plan journal hplan hbase hfault hlegal hjournal =>
    have hfresh := fresh_of_unparked h.unparked hplan
    have hdrafted := (h.holds hbrings).drafted hfresh hplan
    obtain ⟨hwritten, hreleases⟩ :=
      h.releases hdrafted.advance (plan_mints hbrings hfresh hplan).accepts
    refine ⟨⟨hvolatile, rfl, hreached, fun slot entry hget => ?_, ?_, ?_⟩,
      h.sends hbrings hfresh hplan, hreleases.of_filter⟩
    · rcases mutateJournal_get hfrontier hjournal hget with hheld | hmem
      · exact h.journal slot entry hheld
      · exact hwritten entry hmem
    · exact installed_reported (r := { r with parked := none }) h.attempt hdrafted.reports
    · exact installed_stalled (r := { r with parked := none }) h.offer hdrafted.offers

/-- Reclaiming adds nothing. -/
theorem Supplied.reclaim {r : Replica SegmentedLog} (h : r.Supplied Q) :
    r.reclaimJournal.Supplied Q := by
  unfold reclaimJournal
  split
  · exact h
  · have hreclaims := reclaims_reclaimThrough r.journal r.progress.checkpoint
    exact ⟨h.volatile, h.unparked, .reclaim h.reached hreclaims, fun slot entry hget =>
      h.journal slot entry (hreclaims.held slot entry hget), h.attempt, h.offer⟩

theorem supplied_provision {own : Nat} {order : List Nat}
    {strategy : QuorumStrategy} {journal : J} {stability : Stability} {knobs : ViewChangeKnobs}
    {r : Replica J} (h : provision own order strategy journal stability knobs = .ok r)
    (hvolatile : stability = .volatile) : r.Supplied Q := by
  have hreached : r.Reached := .provision h
  obtain ⟨table, journal', progress, -, hempty, hinstall, -, rfl⟩ := provision_data h
  obtain ⟨-, -, -, -, hreads⟩ := LawfulJournal.installSuffix_fresh hempty hinstall
  refine ⟨hvolatile, rfl, hreached, fun slot entry hget => ?_, fun attempt hnone => ?_,
    fun offer hnone => ?_⟩
  · have hget : Journal.get journal' slot = some entry := hget
    rw [hreads] at hget
    rcases List.mem_cons.mp (List.mem_of_find?_eq_some hget) with rfl | hmem
    · exact .system
    · rw [List.mem_singleton.mp hmem]
      exact .system
  · cases hnone
  · cases hnone

end Replica

/-! ### The cluster -/

namespace Cluster

/-- **What the nodes of a cluster, its messages and its releases meet**: the condition, and that
each node releases every slot once, in order, up to its committed frontier. -/
structure Supplied (Q : Nat → OperationId → List UInt8 → Prop) (c : Cluster) : Prop where
  nodes : ∀ node r, c.nodes node = some r → r.Supplied Q
  sent : ∀ envelope ∈ c.sent, ∀ entry ∈ envelope.message.entries, entry.Sourced Q
  applied : ∀ release ∈ c.applied, Q release.slot release.operationId release.payload
  behind : ∀ release ∈ c.applied, ∃ r, c.nodes release.node = some r ∧
    release.slot ≤ r.progress.committed
  ascending : ∀ node,
    ((c.applied.filter fun release => release.node = node).map Release.slot).Pairwise (· < ·)

theorem mem_releases {node : Nat} {effects : List Effect} {release : Release} :
    release ∈ releases node effects ↔ release.node = node ∧
      Effect.apply release.slot release.operationId release.payload ∈ effects := by
  refine List.mem_filterMap.trans ⟨?_, fun ⟨hnode, hmem⟩ => ⟨_, hmem, ?_⟩⟩
  · rintro ⟨effect, hmem, happlied⟩
    cases effect with
    | apply slot id payload =>
      cases happlied
      exact ⟨rfl, hmem⟩
    | send | persist | adminResponse => cases happlied
  · subst hnode
    rfl

theorem releases_slots (node : Nat) (effects : List Effect) :
    (releases node effects).map Release.slot = effects.filterMap Effect.appliedSlot := by
  unfold releases
  rw [List.map_filterMap]
  congr 1
  funext effect
  cases effect <;> rfl

theorem releases_filter (node other : Nat) (effects : List Effect) :
    (releases node effects).filter (fun release => release.node = other) =
      if node = other then releases node effects else [] := by
  split
  · rename_i heq
    exact List.filter_eq_self.mpr fun release hmem => by simp [(mem_releases.mp hmem).1, heq]
  · rename_i hne
    exact List.filter_eq_nil_iff.mpr fun release hmem => by simp [(mem_releases.mp hmem).1, hne]

theorem Supplied.act {c : Cluster} (h : c.Supplied Q) {node : Nat} {input : TimedInput}
    (hbrings : ∀ r, c.nodes node = some r → r.Brings Q input.event) :
    (c.act node input).Supplied Q := by
  unfold Cluster.act
  cases hnode : c.nodes node with
  | none => exact h
  | some r =>
    have hsupplies := (h.nodes node r hnode).step (hbrings r hnode)
    simp only
    generalize r.step input = result at hsupplies
    obtain ⟨r', effects⟩ := result
    have hbefore : ∀ release ∈ c.applied, release.node = node →
        release.slot ≤ r.progress.committed := by
      intro release hmem heq
      obtain ⟨s, hs, hle⟩ := h.behind release hmem
      rw [heq, hnode] at hs
      cases hs
      exact hle
    refine ⟨fun other s hs => ?_, fun envelope hmem => ?_, fun release hmem => ?_,
      fun release hmem => ?_, fun other => ?_⟩
    · have hs : (if other = node then some r' else c.nodes other) = some s := hs
      split at hs
      · cases hs
        exact hsupplies.supplied
      · exact h.nodes other s hs
    · rcases List.mem_append.mp hmem with hmem | hmem
      · exact h.sent envelope hmem
      · obtain ⟨effect, heffect, henvelope⟩ := List.mem_filterMap.mp hmem
        cases effect with
        | send recipient era message =>
          cases henvelope
          exact hsupplies.sent _ heffect
        | persist | apply | adminResponse => cases henvelope
    · rcases List.mem_append.mp hmem with hmem | hmem
      · exact h.applied release hmem
      · exact (hsupplies.releases.applied _ _ _ (mem_releases.mp hmem).2).1
    · show ∃ s, (if release.node = node then some r' else c.nodes release.node) = some s ∧ _
      split
      · rename_i heq
        refine ⟨r', rfl, ?_⟩
        rcases List.mem_append.mp hmem with hmem | hmem
        · exact (hbefore release hmem heq).trans hsupplies.releases.forward
        · exact (hsupplies.releases.applied _ _ _ (mem_releases.mp hmem).2).2.2
      · rename_i hne
        rcases List.mem_append.mp hmem with hmem | hmem
        · exact h.behind release hmem
        · exact absurd (mem_releases.mp hmem).1 hne
    · show ((List.filter _ (c.applied ++ releases node effects)).map Release.slot).Pairwise _
      rw [List.filter_append, releases_filter, List.map_append]
      split
      · rename_i heq
        subst heq
        rw [releases_slots]
        refine List.pairwise_append.mpr ⟨h.ascending node, hsupplies.releases.ascending,
          fun earlier hearlier later hlater => ?_⟩
        obtain ⟨release, hmem, rfl⟩ := List.mem_map.mp hearlier
        obtain ⟨hmem, hown⟩ := List.mem_filter.mp hmem
        rw [← releases_slots node] at hlater
        obtain ⟨next, hnext, rfl⟩ := List.mem_map.mp hlater
        exact (hbefore release hmem (of_decide_eq_true hown)).trans_lt
          (hsupplies.releases.applied _ _ _ (mem_releases.mp hnext).2).2.1
      · rw [List.map_nil, List.append_nil]
        exact h.ascending other

/-- What an event proposes meets the condition, at the slot it would get. -/
def Proposes (Q : Nat → OperationId → List UInt8 → Prop) (c : Cluster) (event : ClusterEvent) :
    Prop :=
  ∀ node time operation, event = .input node time (.propose operation) →
    ∀ r, c.nodes node = some r → r.TakesProposals →
      Q (r.progress.accepted + 1) operation.id operation.payload

theorem Supplied.step {c : Cluster} (h : c.Supplied Q) {event : ClusterEvent}
    (hproposes : c.Proposes Q event) : (c.step event).Supplied Q := by
  cases event with
  | input node time event =>
    unfold Cluster.step Cluster.taken
    simp only
    split
    · exact h
    · rename_i htaken
      split at htaken
      · cases htaken
      · rename_i hpeer
        cases htaken
        refine h.act fun r hr => ?_
        cases event with
        | propose operation => exact hproposes node time operation rfl r hr
        | peer sender message => exact absurd rfl hpeer
        | _ => trivial
  | deliver index time =>
    unfold Cluster.step Cluster.taken
    simp only
    split
    · exact h
    · rename_i htaken
      split at htaken
      · cases htaken
      · rename_i envelope henvelope
        cases htaken
        exact h.act fun r hr => h.sent envelope (List.mem_of_getElem? henvelope)
  | reclaim node =>
    show (c.reclaim node).Supplied Q
    unfold Cluster.reclaim
    split
    · exact h
    · rename_i r hr
      refine ⟨fun other s hs => ?_, h.sent, h.applied, fun release hmem => ?_, h.ascending⟩
      · have hs : (if other = node then some r.reclaimJournal else c.nodes other) = some s := hs
        split at hs
        · cases hs
          exact (h.nodes node r hr).reclaim
        · exact h.nodes other s hs
      · obtain ⟨s, hs, hle⟩ := h.behind release hmem
        show ∃ s, (if release.node = node then some r.reclaimJournal else c.nodes release.node) =
          some s ∧ _
        split
        · rename_i heq
          rw [heq, hr] at hs
          cases hs
          exact ⟨_, rfl, (reclaimJournal_progress r).symm ▸ hle⟩
        · exact ⟨s, hs, hle⟩

/-! ### Runs -/

/-- **An operation was proposed for a slot** in a run: to a node that took proposals, when the slot
was its next free one. -/
def ProposedFor (c : Cluster) (events : List ClusterEvent) (slot : Nat) (id : OperationId)
    (payload : List UInt8) : Prop :=
  ∃ before node time after r,
    events = before ++ .input node time (.propose { id := id, payload := payload }) :: after ∧
    (c.run before).nodes node = some r ∧ r.TakesProposals ∧ slot = r.progress.accepted + 1

theorem Supplied.run {c : Cluster} (h : c.Supplied Q) {events : List ClusterEvent}
    (hproposed : ∀ slot id payload, c.ProposedFor events slot id payload → Q slot id payload) :
    (c.run events).Supplied Q := by
  induction events generalizing c with
  | nil => exact h
  | cons event events ih =>
    refine ih (h.step ?_) fun slot id payload => ?_
    · rintro node time operation rfl r hr htakes
      exact hproposed _ _ _ ⟨[], node, time, events, r, rfl, hr, htakes, rfl⟩
    · rintro ⟨before, node, time, after, r, rfl, hr, htakes, hslot⟩
      exact hproposed _ _ _ ⟨event :: before, node, time, after, r, rfl, hr, htakes, hslot⟩

theorem provisioned_eq {order : List Nat} {knobs : Nat → ViewChangeKnobs}
    {tailCapacity : Nat → Nat} {node : Nat} {r : Replica SegmentedLog}
    (h : (provisioned order knobs tailCapacity).nodes node = some r) :
    Replica.provision node order weightedMajority
      (SegmentedLog.withTailCapacity (tailCapacity node)) .volatile (knobs node) = .ok r := by
  simp only [provisioned] at h
  split at h
  · rename_i hprovision
    rw [← Option.some.inj h]
    exact hprovision
  · cases h

/-- A fresh cluster holds system entries alone. -/
theorem supplied_provisioned (order : List Nat) (knobs : Nat → ViewChangeKnobs)
    (tailCapacity : Nat → Nat) : (provisioned order knobs tailCapacity).Supplied Q where
  nodes _ _ hr := Replica.supplied_provision (provisioned_eq hr) rfl
  sent _ hmem := nomatch hmem
  applied _ hmem := nomatch hmem
  behind _ hmem := nomatch hmem
  ascending _ := List.Pairwise.nil

theorem supplied_run (order : List Nat) (knobs : Nat → ViewChangeKnobs)
    (tailCapacity : Nat → Nat) (events : List ClusterEvent) :
    ((provisioned order knobs tailCapacity).run events).Supplied
      ((provisioned order knobs tailCapacity).ProposedFor events) :=
  (supplied_provisioned order knobs tailCapacity).run fun _ _ _ hproposed => hproposed

/-- **Where operations come from**: in every run of a cluster, reconfigured and forced into views
in any way, an operation that any journal holds at a slot, that any message carries at it, or that
any node applied at it, was proposed for the slot before to a primary. -/
theorem operations_proposed (order : List Nat) (knobs : Nat → ViewChangeKnobs) (tailCapacity : Nat → Nat)
    (events : List ClusterEvent) :
    (∀ node r, ((provisioned order knobs tailCapacity).run events).nodes node = some r →
      ∀ slot entry, Journal.get r.journal slot = some entry →
        entry.Sourced ((provisioned order knobs tailCapacity).ProposedFor events)) ∧
    (∀ envelope ∈ ((provisioned order knobs tailCapacity).run events).sent,
      ∀ entry ∈ envelope.message.entries,
        entry.Sourced ((provisioned order knobs tailCapacity).ProposedFor events)) ∧
    ∀ release ∈ ((provisioned order knobs tailCapacity).run events).applied,
      (provisioned order knobs tailCapacity).ProposedFor events release.slot release.operationId
        release.payload := by
  have hsupplied := supplied_run order knobs tailCapacity events
  exact ⟨fun node r hr => (hsupplied.nodes node r hr).journal, hsupplied.sent, hsupplied.applied⟩

/-! ### No operation is applied too often -/

/-- The proposals of an operation. -/
def proposals (id : OperationId) (payload : List UInt8) (events : List ClusterEvent) : Nat :=
  events.countP fun event =>
    match event with
    | .input _ _ (.propose operation) => operation = { id := id, payload := payload }
    | _ => false

/-- The slots an operation was proposed for are no more than its proposals. -/
theorem proposedFor_slots (c : Cluster) (events : List ClusterEvent) (id : OperationId)
    (payload : List UInt8) :
    ∃ slots : List Nat, slots.length ≤ proposals id payload events ∧
      ∀ slot, c.ProposedFor events slot id payload → slot ∈ slots := by
  induction events generalizing c with
  | nil =>
    refine ⟨[], Nat.le_refl _, fun slot hproposed => ?_⟩
    obtain ⟨before, node, time, after, r, heq, -⟩ := hproposed
    cases before <;> cases heq
  | cons event events ih =>
    obtain ⟨slots, hlength, hslots⟩ := ih (c.step event)
    -- a proposal of the operation adds the next free slot of its node, any other event adds none
    have hlater : ∀ slot, c.ProposedFor (event :: events) slot id payload →
        slot ∈ slots ∨ ∃ node time r, event = .input node time (.propose ⟨id, payload⟩) ∧
          c.nodes node = some r ∧ slot = r.progress.accepted + 1 := by
      rintro slot ⟨before, node, time, after, r, heq, hr, htakes, hslot⟩
      cases before with
      | nil =>
        cases heq
        exact .inr ⟨node, time, r, rfl, hr, hslot⟩
      | cons first rest =>
        cases heq
        exact .inl (hslots slot ⟨rest, node, time, after, r, rfl, hr, htakes, hslot⟩)
    by_cases hthis : ∃ node time, event = .input node time (.propose ⟨id, payload⟩)
    · obtain ⟨node, time, rfl⟩ := hthis
      refine ⟨((c.nodes node).elim 0 fun r => r.progress.accepted + 1) :: slots, ?_, ?_⟩
      · rw [proposals, List.countP_cons_of_pos (by simp)]
        exact Nat.succ_le_succ hlength
      · intro slot hproposed
        rcases hlater slot hproposed with hmem | ⟨node', time', r, heq, hr, hslot⟩
        · exact List.mem_cons_of_mem _ hmem
        · cases heq
          rw [hr, hslot]
          exact List.mem_cons_self
    · refine ⟨slots, hlength.trans ?_, fun slot hproposed => ?_⟩
      · rw [proposals, proposals, List.countP_cons]
        exact Nat.le_add_right _ _
      · rcases hlater slot hproposed with hmem | ⟨node, time, r, heq, -⟩
        · exact hmem
        · exact absurd ⟨node, time, heq⟩ hthis

/-- A node applies an operation at distinct slots, for each of which it was proposed. -/
theorem Supplied.applied_le {c c' : Cluster} {events : List ClusterEvent}
    (h : c'.Supplied (c.ProposedFor events)) (node : Nat) (id : OperationId)
    (payload : List UInt8) :
    (c'.applied.countP fun release =>
      release.node = node ∧ release.operationId = id ∧ release.payload = payload) ≤
      proposals id payload events := by
  obtain ⟨slots, hlength, hslots⟩ := proposedFor_slots c events id payload
  have hdistinct : (((c'.applied.filter fun release => release.node = node).filter
      fun release => release.operationId = id ∧ release.payload = payload).map
        Release.slot).Nodup :=
    ((h.ascending node).sublist (List.filter_sublist.map _)).imp fun hlt => hlt.ne
  have hamong : ((c'.applied.filter fun release => release.node = node).filter
      fun release => release.operationId = id ∧ release.payload = payload).map
        Release.slot ⊆ slots := by
    intro slot hmem
    obtain ⟨release, hrelease, rfl⟩ := List.mem_map.mp hmem
    obtain ⟨hheld, hsame⟩ := List.mem_filter.mp hrelease
    obtain ⟨rfl, rfl⟩ := of_decide_eq_true hsame
    exact hslots _ (h.applied release (List.mem_of_mem_filter hheld))
  refine le_trans ?_ ((List.subperm_of_subset hdistinct hamong).length_le.trans hlength)
  rw [List.length_map, ← List.countP_eq_length_filter, List.countP_filter]
  refine (List.countP_congr fun release _ => ?_).le
  simp only [decide_eq_true_eq, Bool.and_eq_true]
  exact and_comm

/-- **No operation is applied too often**: in every run of a cluster no node applies an operation
more often than it was proposed. -/
theorem applied_at_most (order : List Nat) (knobs : Nat → ViewChangeKnobs)
    (tailCapacity : Nat → Nat) (events : List ClusterEvent) (node : Nat) (id : OperationId)
    (payload : List UInt8) :
    (((provisioned order knobs tailCapacity).run events).applied.countP fun release =>
      release.node = node ∧ release.operationId = id ∧ release.payload = payload) ≤
      proposals id payload events :=
  (supplied_run order knobs tailCapacity events).applied_le node id payload

end Cluster

end UvrrCore
