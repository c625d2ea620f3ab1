import UvrrCore.OneEra.Inputs

/-!
# Agreement in the first era

Every reachable cluster stands for a reachable viewstamped state (`Stands`), so that two replicas
that apply an operation at one slot apply the same: both are chosen there.

The runs are those whose installs fit (`SuffixesFit`): a suffix that the byte budget cut short is
installed only over entries its sender held, and a chunk is taken from a history of the same
ballot. `divergent_operations` is a run without that.
-/

namespace UvrrCore

open Viewstamped

namespace Genesis

variable {g : Genesis} {a : Ledger} {sent : List Envelope} {node : Nat}
  {r : Replica SegmentedLog}

/-! ### One replica -/

/-- A fault, noted in the record, changes nothing a replica stands for. -/
theorem Tracks.withProgress (h : g.Tracks a sent node r) {progress : Progress}
    {fault : Option Fault} {revision : Nat} (hdata : progress.toProgressData =
      { r.progress.toProgressData with fault := fault, revision := revision }) :
    g.Tracks a sent node { r with progress := progress, parked := none } := by
  have hr := h.record
  exact
    { own := h.own
      member := h.member
      strategy := h.strategy
      stability := h.stability
      parked := rfl
      planned := h.planned
      reincarnation := h.reincarnation
      planExecution := h.planExecution
      record := by
        show g.Recorded _ progress.toProgressData
        rw [hdata]
        exact ⟨hr.config, hr.era, hr.current, hr.retained, hr.accepted, hr.committed, hr.genesis,
          hr.status⟩
      reads := h.reads
      frontier := h.frontier
      window := by
        show _ ≤ progress.committed + 1
        rw [hdata]
        exact h.window
      attempt := fun attempt hattempt => by
        show attempt.target = progress.current ∧ progress.status = .viewChange ∧
          g.Pursued a sent node progress.retained attempt
        rw [hdata]
        exact h.attempt attempt hattempt
      counted := by
        show Counted a progress.retained r.proposals
        rw [hdata]
        exact h.counted
      offered := h.offered }

theorem Tracks.faultNode (h : g.Tracks a sent node r) (fault : Fault) :
    g.Tracks a sent node (({ r with parked := none } : Replica SegmentedLog).faultNode fault) := by
  have hsame : g.Tracks a sent node { r with parked := none } :=
    h.withProgress (show r.progress.toProgressData =
      { r.progress.toProgressData with
        fault := r.progress.fault, revision := r.progress.revision } from rfl)
  rcases Replica.faultNode_cases { r with parked := none } fault with heq | ⟨progress, heq, hdata⟩
  · rw [heq]
    exact hsame
  · rw [heq]
    exact h.withProgress hdata

/-- **A replica takes an input** as a move of its node. -/
theorem Tracks.step (htracks : g.Tracks a sent node r)
    {input : TimedInput} (hrefines : ∀ plan, r.plan input = .ok plan → plan.fault = none →
      g.Refines a sent node r plan) :
    ∃ a', g.Advances node a a' ∧ g.Tracks a' sent node (r.step input).1 ∧
      ∀ effect ∈ (r.step input).2, g.Effective a' node effect := by
  have hparked : r = { r with parked := none } := by
    have := htracks.parked
    cases r
    simp only at this
    rw [this]
  have houtcome := Replica.step_outcome r input
  generalize r.step input = result at houtcome
  cases houtcome with
  | refused => exact ⟨a, Advances.refl g node a, htracks, fun _ hmem => nomatch hmem⟩
  | faulted fault =>
    have hfaulted := htracks.faultNode fault
    rw [← hparked] at hfaulted
    exact ⟨a, Advances.refl g node a, hfaulted, fun _ hmem => nomatch hmem⟩
  | diverged plan hplan hlegal =>
    exact ⟨a, Advances.refl g node a, htracks.faultNode _, fun _ hmem => nomatch hmem⟩
  | parked plan hplan hfresh hstability => exact absurd htracks.stability hstability
  | published plan journal hplan hbase hfault hlegal hjournal =>
    obtain ⟨a', hadvances, hlanded⟩ := hrefines plan hplan hfault
    exact ⟨a', hadvances, hlanded.tracks htracks hlegal hjournal, hlanded.effects⟩

theorem Tracks.reclaim (h : g.Tracks a sent node r) : g.Tracks a sent node r.reclaimJournal := by
  unfold Replica.reclaimJournal
  split
  · exact h
  · obtain ⟨haccepted, first, hfirst, -, hwindow, hget⟩ :=
      r.journal.reclaimThrough_spec r.progress.checkpoint
    have hpoint : r.progress.checkpoint ≤ r.progress.committed :=
      r.progress.checkpoint_le_applied.trans r.progress.applied_le_committed
    have hopen := h.window
    exact
      { h with
        reads := fun slot entry hheld => by
          rw [hget] at hheld
          split at hheld
          · cases hheld
          · exact h.reads slot entry hheld
        frontier := haccepted.trans h.frontier
        window := by
          show (Journal.retained (r.journal.reclaimThrough r.progress.checkpoint)).1 ≤ _
          rw [hwindow]
          rcases hfirst with heq | hle
          · rw [heq]
            exact hopen
          · exact hle.trans (Nat.succ_le_succ hpoint) }

/-! ### The cluster -/

/-- **The cluster stands for the state.** -/
structure Stands (g : Genesis) (a : Ledger) (c : Cluster) : Prop where
  inv : Inv g.setting a
  whole : ∀ n, a.Whole n
  tracks : ∀ node r, c.nodes node = some r → g.Tracks a c.sent node r
  sent : ∀ e ∈ c.sent, g.MessageOk a e
  applied : ∀ release ∈ c.applied,
    g.Applies a release.slot release.operationId release.payload

/-- An input of one replica that is a move of its node is a move of the cluster. -/
theorem Stands.act {c : Cluster} (h : Stands g a c) {input : TimedInput}
    (hrefines : ∀ r, c.nodes node = some r → ∀ plan, r.plan input = .ok plan →
      plan.fault = none → g.Refines a c.sent node r plan) :
    ∃ a', Grows a a' ∧ Stands g a' (c.act node input) := by
  unfold Cluster.act
  cases hnode : c.nodes node with
  | none => exact ⟨a, Grows.refl a, h⟩
  | some r =>
    obtain ⟨a', hadvances, htracks, heffects⟩ :=
      (h.tracks node r hnode).step (hrefines r hnode)
    have hgrows := hadvances.grows h.inv
    simp only
    generalize r.step input = result at htracks heffects
    have hmore : ∀ e ∈ c.sent, e ∈ c.sent ++ Cluster.envelopes node result.1 result.2 :=
      fun e he => List.mem_append_left _ he
    refine ⟨a', hgrows, hadvances.inv h.inv, fun n => (h.whole n).steps hadvances.steps,
      fun other s hs => ?_, fun e he => ?_, fun release hrelease => ?_⟩
    · have hs : (if other = node then some result.1 else c.nodes other) = some s := hs
      split at hs
      · rename_i heq
        cases hs
        rw [heq]
        exact htracks.mono (Grows.refl a') hmore rfl
      · rename_i hne
        exact (h.tracks other s hs).mono hgrows hmore (hadvances.others other hne)
    · rcases List.mem_append.mp he with he | he
      · exact (h.sent e he).mono hgrows
      · obtain ⟨effect, heffect, henvelope⟩ := List.mem_filterMap.mp he
        cases effect with
        | send recipient era message =>
          cases henvelope
          exact Sendable.messageOk ((hadvances.inv h.inv).present node) htracks
            (heffects _ heffect)
        | persist intent => cases henvelope
        | apply slot id payload => cases henvelope
        | adminResponse response => cases henvelope
    · rcases List.mem_append.mp hrelease with hrelease | hrelease
      · exact (h.applied release hrelease).mono hgrows
      · obtain ⟨effect, heffect, happlied⟩ := List.mem_filterMap.mp hrelease
        cases effect with
        | send recipient era message => cases happlied
        | persist intent => cases happlied
        | apply slot id payload =>
          cases happlied
          exact heffects _ heffect
        | adminResponse response => cases happlied

/-- **Agreement**: what is applied at a slot is chosen there. -/
theorem Stands.agrees {c : Cluster} (h : Stands g a c) : c.Agreement := by
  intro first hfirst second hsecond hslot
  obtain ⟨b, s, entry, heq, hchosen, hentry, hpayload⟩ := h.applied first hfirst
  obtain ⟨b', s', entry', heq', hchosen', hentry', hpayload'⟩ := h.applied second hsecond
  obtain rfl : s = s' := by omega
  obtain ⟨v, hv, hv'⟩ := h.inv.chosen_agree hchosen hchosen'
  have hsame : entry = entry' :=
    (Option.some.inj (hentry.symm.trans hv)).trans (Option.some.inj (hv'.symm.trans hentry'))
  rw [hsame, hpayload'] at hpayload
  obtain ⟨hid, hbytes⟩ := Payload.operation.inj hpayload
  exact ⟨hid.symm, hbytes.symm⟩

/-! ### Runs -/

/-- The host reconfigures nothing. -/
def PlainEvent : ClusterEvent → Prop
  | .input _ _ event => Plain event
  | .deliver .. | .reclaim _ => True

instance (event : ClusterEvent) : Decidable (PlainEvent event) := by
  unfold PlainEvent
  cases event <;> infer_instance

/-- **What is installed fits.** -/
def SuffixesFit (c : Cluster) : ClusterEvent → Prop
  | .input node _ event => event = .tick → ∀ r ∈ c.nodes node, TickFits c.sent r
  | .deliver index _ => ∀ e ∈ c.sent[index]?, ∀ r ∈ c.nodes e.recipient, DeliveryFits c.sent r e
  | .reclaim _ => True

instance (c : Cluster) (event : ClusterEvent) : Decidable (SuffixesFit c event) := by
  unfold SuffixesFit
  cases event <;> infer_instance

/-- **One event.** -/
theorem Stands.step {c : Cluster} (h : Stands g a c) {event : ClusterEvent}
    (hplain : PlainEvent event) (hfits : SuffixesFit c event) :
    ∃ a', Grows a a' ∧ Stands g a' (c.step event) := by
  cases event with
  | input other time event =>
    unfold Cluster.step Cluster.taken
    simp only
    split
    · exact ⟨a, Grows.refl a, h⟩
    · rename_i htaken
      split at htaken
      · cases htaken
      · cases htaken
        refine h.act fun r hr plan hplan hfault => ?_
        refine plan_refines h.inv (h.tracks other r hr) h.sent (h.whole other) ?_ ?_ hplan hfault
        · exact hplain
        · exact fun htick => hfits htick r hr
  | deliver index time =>
    unfold Cluster.step Cluster.taken
    simp only
    split
    · exact ⟨a, Grows.refl a, h⟩
    · rename_i htaken
      split at htaken
      · cases htaken
      · rename_i e he
        cases htaken
        exact h.act fun r hr plan hplan hfault => plan_delivery_refines h.inv
          (h.tracks e.recipient r hr) h.sent (h.whole e.recipient) (List.mem_of_getElem? he)
          (hfits e he r hr) hplan hfault
  | reclaim other =>
    show ∃ a', Grows a a' ∧ Stands g a' (c.reclaim other)
    unfold Cluster.reclaim
    split
    · exact ⟨a, Grows.refl a, h⟩
    · rename_i r hnode
      refine ⟨a, Grows.refl a, h.inv, h.whole, fun n s hs => ?_, h.sent, h.applied⟩
      have hs : (if n = other then some r.reclaimJournal else c.nodes n) = some s := hs
      split at hs
      · rename_i heq
        cases hs
        rw [heq]
        exact (h.tracks other r hnode).reclaim
      · exact h.tracks n s hs

theorem Stands.grows_run {c : Cluster} (h : Stands g a c) {events : List ClusterEvent}
    (hplain : ∀ event ∈ events, PlainEvent event) (hfits : Cluster.Along SuffixesFit c events) :
    ∃ a', Grows a a' ∧ Stands g a' (c.run events) := by
  induction events generalizing c a with
  | nil => exact ⟨a, Grows.refl a, h⟩
  | cons event events ih =>
    obtain ⟨hfirst, hrest⟩ := hfits
    obtain ⟨a', hgrows, hnext⟩ := h.step (hplain event List.mem_cons_self) hfirst
    obtain ⟨a'', hgrows', hlast⟩ :=
      ih hnext (fun later hmem => hplain later (List.mem_cons_of_mem _ hmem)) hrest
    exact ⟨a'', hgrows.trans hgrows', hlast⟩

theorem Stands.run {c : Cluster} (h : Stands g a c) {events : List ClusterEvent}
    (hplain : ∀ event ∈ events, PlainEvent event) (hfits : Cluster.Along SuffixesFit c events) :
    ∃ a', Stands g a' (c.run events) := by
  obtain ⟨a', -, hstands⟩ := h.grows_run hplain hfits
  exact ⟨a', hstands⟩

/-- **A fresh cluster** stands for the fresh state. -/
theorem stands_provisioned (g : Genesis) (knobs : Nat → ViewChangeKnobs)
    (tailCapacity : Nat → Nat) :
    Stands g (initial g.setting) (Cluster.provisioned g.order knobs tailCapacity) where
  inv := inv_initial g.setting
  whole n := whole_initial g.setting n
  sent _ hmem := nomatch hmem
  applied _ hmem := nomatch hmem
  tracks node r hr := by
    have hmember := Cluster.provisioned_member hr
    obtain ⟨table, journal, progress, htable, hjournal, hprogress, rfl⟩ :=
      Cluster.provisioned_node hr
    obtain rfl : g.table = table := Except.ok.inj (g.folds.symm.trans htable)
    have hdata := Progress.reconstitute_data hprogress
    obtain ⟨-, hrun, hlast, hfirst, hget⟩ := LawfulJournal.installSuffix_fresh rfl hjournal
    rw [g.table_era] at hdata hjournal hrun hlast hget
    exact
      { own := rfl
        member := hmember
        strategy := rfl
        stability := rfl
        parked := rfl
        planned := rfl
        reincarnation := rfl
        planExecution := rfl
        record := by
          show g.Recorded _ progress.toProgressData
          rw [hdata]
          exact
            { config := rfl
              era := rfl
              current := rfl
              retained := rfl
              accepted := rfl
              committed := rfl
              genesis := Nat.le_refl _
              status := Or.inr (Or.inr ⟨rfl, rfl, rfl⟩) }
        reads := fun slot entry hheld => by
          have hheld : Journal.get journal slot = some entry := hheld
          rw [hget, hrun.entryAt_eq] at hheld
          split at hheld
          · cases hheld
          · rename_i hlow
            cases slot with
            | zero => exact absurd hlow (by decide)
            | succ i => exact hheld
        frontier := hlast
        window := by
          show (Journal.retained journal).1 ≤ progress.committed + 1
          rw [hfirst, hdata]
          exact (by decide : (1 : Nat) ≤ 2 + 1)
        attempt := fun _ hattempt => nomatch hattempt
        counted := counted_empty
        offered := fun _ hoffer => nomatch hoffer }

end Genesis

namespace Cluster

/-- Nothing happens in a cluster without nodes. -/
theorem step_silent {c : Cluster} (hnodes : ∀ node, c.nodes node = none) (event : ClusterEvent) :
    c.step event = c := by
  have hact : ∀ node input, c.act node input = c := fun node input => by
    unfold act
    rw [hnodes]
  cases event with
  | input node time event =>
    unfold step
    simp only
    split
    · rfl
    · exact hact _ _
  | deliver index time =>
    unfold step
    simp only
    split
    · rfl
    · exact hact _ _
  | reclaim node =>
    unfold step reclaim
    simp only
    rw [hnodes]

theorem run_silent {c : Cluster} (hnodes : ∀ node, c.nodes node = none)
    (events : List ClusterEvent) : c.run events = c := by
  induction events with
  | nil => rfl
  | cons event events ih =>
    show (c.step event).run events = c
    rw [step_silent hnodes]
    exact ih

/-- A cluster whose genesis does not fold has no nodes, and never applies anything. -/
theorem silent_run {c : Cluster} (hnodes : ∀ node, c.nodes node = none) (hnone : c.applied = [])
    (events : List ClusterEvent) : (c.run events).applied = [] := by
  rw [run_silent hnodes]
  exact hnone

/-- **Agreement.** In every run in which nothing is reconfigured and what is installed fits, two
replicas that apply an operation at one slot apply the same. -/
theorem agreement (order : List Nat) (knobs : Nat → ViewChangeKnobs) (tailCapacity : Nat → Nat)
    (events : List ClusterEvent) (hplain : ∀ event ∈ events, Genesis.PlainEvent event)
    (hfits : Along Genesis.SuffixesFit (provisioned order knobs tailCapacity) events) :
    ((provisioned order knobs tailCapacity).run events).Agreement := by
  cases hfolds : Replica.genesisTable order with
  | ok table =>
    obtain ⟨a, hstands⟩ :=
      (Genesis.stands_provisioned { order := order, table := table, folds := hfolds } knobs
        tailCapacity).run hplain hfits
    exact hstands.agrees
  | error error =>
    have hnodes : ∀ node, (provisioned order knobs tailCapacity).nodes node = none := by
      intro node
      cases hnode : (provisioned order knobs tailCapacity).nodes node with
      | none => rfl
      | some r =>
        obtain ⟨table, -, -, htable, -⟩ := provisioned_node hnode
        rw [hfolds] at htable
        cases htable
    intro first hfirst
    rw [silent_run hnodes rfl] at hfirst
    cases hfirst

/-- A run with two elections, whose suffixes carry the journals whole. -/
theorem agreement_elected :
    ((provisioned [1, 2, 3] (fun _ => ⟨0, 1000⟩) fun _ => 4).run
      [.input 1 1 .tick, .deliver 0 1, .deliver 1 1, .input 1 2 (.propose ⟨⟨0, 1⟩, []⟩),
        .input 2 3 (.adminForceView ⟨1, 1⟩), .deliver 5 3, .deliver 7 3, .deliver 8 3,
        .deliver 10 3, .input 2 4 (.propose ⟨⟨0, 2⟩, []⟩), .deliver 12 4, .deliver 13 4,
        .deliver 15 5]).Agreement :=
  agreement [1, 2, 3] (fun _ => ⟨0, 1000⟩) (fun _ => 4) _ (by decide) (by decide +kernel)

/-! ### A suffix cut short -/

/-- The budget cuts every suffix to nothing. Node 1 proposes one operation at slot 3 and hears no
more; node 2 opens view 1 without it and commits another there; node 3 opens view 2 with that and
announces it with an empty suffix. Node 1 takes the empty suffix as agreement about its own slot 3
and applies the first operation. -/
theorem divergent_operations :
    ¬∀ order knobs tailCapacity events, (∀ event ∈ events, Genesis.PlainEvent event) →
      ((provisioned order knobs tailCapacity).run events).Agreement := by
  intro h
  have hrun := h [1, 2, 3] (fun _ => ⟨0, 0⟩) (fun _ => 4)
    [.input 1 1 .tick, .deliver 0 1, .deliver 1 1, .input 1 2 (.propose ⟨⟨0, 1⟩, []⟩),
      .input 2 3 (.adminForceView ⟨1, 1⟩), .deliver 5 3, .deliver 7 3, .deliver 8 3,
      .deliver 10 3, .input 2 4 (.propose ⟨⟨0, 2⟩, []⟩), .deliver 12 4, .deliver 13 4,
      .deliver 15 5, .input 3 6 (.adminForceView ⟨1, 2⟩), .deliver 17 6, .deliver 19 6,
      .deliver 20 6, .deliver 21 7] (by decide)
  exact absurd hrun (by decide +kernel)

end Cluster

end UvrrCore
