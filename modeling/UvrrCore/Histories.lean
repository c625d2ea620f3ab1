import UvrrCore.Acknowledged
import UvrrCore.Adoption
import UvrrCore.Proposed
import UvrrCore.Storable

/-!
# What the nodes of a cluster applied

The history of a node is read off a run: the entries its steps newly committed, as its journal held
them then. In any run, whatever the hosts ask for and however messages are delivered, a node applied
the client operations of its history, in order and each once, and its history has no gaps.

The lives of single replicas ask that the entries of incoming messages could be stored. In a cluster
this is no assumption: nothing else is ever sent.

## Main results

* `Cluster.applied_history`: a node applied exactly the operations of its history.
-/

namespace UvrrCore

/-- What is released of an entry at a node. -/
def LogEntry.release (node : Nat) (entry : LogEntry) : Option Release :=
  match entry.payload with
  | .operation id payload =>
    some { node := node, slot := entry.slot, operationId := id, payload := payload }
  | .system _ => none

namespace Cluster

/-- The entries a step newly commits at a node, as its journal holds them behind the step. -/
def newly (node : Nat) (c c' : Cluster) : List LogEntry :=
  match c.nodes node, c'.nodes node with
  | some r, some r' => committedIn r'.journal r.progress.committed r'.progress.committed
  | _, _ => []

/-- **The history of a node** along a run: the entries it newly committed, step by step. -/
def history (node : Nat) : Cluster → List ClusterEvent → List LogEntry
  | _, [] => []
  | c, event :: events => newly node c (c.step event) ++ history node (c.step event) events

theorem history_append (node : Nat) (c : Cluster) (events later : List ClusterEvent) :
    history node c (events ++ later) =
      history node c events ++ history node (c.run events) later := by
  induction events generalizing c with
  | nil => rfl
  | cons event events ih =>
    rw [List.cons_append, history, history, ih, List.append_assoc]
    rfl

/-- The releases of apply effects are those of the entries they come from. -/
theorem releases_applied (node : Nat) (entries : List LogEntry) :
    releases node (entries.filterMap LogEntry.applied) =
      entries.filterMap (LogEntry.release node) := by
  unfold releases
  rw [List.filterMap_filterMap]
  refine List.filterMap_congr fun entry _ => ?_
  unfold LogEntry.applied LogEntry.release
  cases entry.payload <;> rfl

theorem releases_append (node : Nat) (effects later : List Effect) :
    releases node (effects ++ later) = releases node effects ++ releases node later :=
  List.filterMap_append

theorem releases_isApply (node : Nat) (effects : List Effect) :
    releases node (effects.filter Effect.isApply) = releases node effects := by
  unfold releases
  rw [List.filterMap_filter]
  refine List.filterMap_congr fun effect _ => ?_
  cases effect <;> rfl

/-! ### Lives in a cluster -/

/-- **Each node of a cluster leads a life**: what it applied are the operations of its history. The
messages in flight could be stored, and so could what the nodes collect. -/
structure Living (c : Cluster) (histories : Nat → List LogEntry) : Prop where
  supplied : c.Supplied fun _ _ _ => True
  lived : ∀ node r, c.nodes node = some r → ∃ ranges released,
    Replica.Lived False r ranges released ∧ histories node = ranges.flatten ∧
      (c.applied.filter fun release => release.node = node) = releases node released
  attempt : ∀ node r, c.nodes node = some r →
    ∀ attempt, r.viewChange = some attempt → attempt.Reported Fitting
  sent : ∀ envelope ∈ c.sent, envelope.message.Storable

end Cluster

namespace Replica

variable {r : Replica SegmentedLog} {ranges : List (List LogEntry)} {released : List Effect}

/-- What a replica that leads a life has to send from could be stored. -/
theorem Lived.stocks (h : Lived False r ranges released)
    (hattempt : ∀ attempt, r.viewChange = some attempt → attempt.Reported Fitting) :
    r.Stocks := by
  obtain ⟨log, hbacked⟩ := h.backed
  refine ⟨fun slot entry hget => ?_, hattempt⟩
  obtain ⟨frontier, hfrontier, hle⟩ := LawfulJournal.get_le hget
  have := (SegmentedLog.accepted_bound hfrontier).2
  rw [LawfulJournal.get_slot hget]
  omega

theorem reclaimJournal_viewChange (r : Replica SegmentedLog) :
    r.reclaimJournal.viewChange = r.viewChange := by
  unfold reclaimJournal
  split <;> rfl

theorem Lived.reclaimed (h : Lived False r ranges released) :
    Lived False r.reclaimJournal ranges released := by
  unfold reclaimJournal
  split
  · exact h
  · exact h.reclaim (reclaims_reclaimThrough r.journal r.progress.checkpoint)

/-- A confirmation of nothing parked does nothing. -/
theorem step_confirmation (hunparked : r.parked = none) {input : TimedInput} {revision : Nat}
    {result : StabilityResult} (hevent : input.event = .stabilityConfirmation revision result) :
    r.step input = (r, []) := by
  unfold step
  cases hplan : r.plan input with
  | error refusal => rfl
  | ok plan => exact absurd hevent (fresh_of_unparked hunparked hplan revision result)

/-- What a step of a life in the volatile mode sends, and the reports behind it, could be stored. -/
theorem Lived.sends (h : Lived False r ranges released) (hvolatile : r.stability = .volatile)
    (hunparked : r.parked = none)
    (hattempt : ∀ attempt, r.viewChange = some attempt → attempt.Reported Fitting)
    {input : TimedInput} (hstorable : input.Storable) :
    (∀ attempt, (r.step input).1.viewChange = some attempt → attempt.Reported Fitting) ∧
      Storing (r.step input).2 := by
  have hstocks := h.stocks hattempt
  obtain ⟨log, hbacked⟩ := h.backed
  by_cases hfresh : ∀ revision result, input.event ≠ .stabilityConfirmation revision result
  · refine ⟨hstocks.step hbacked.offer hvolatile hstorable hfresh, ?_⟩
    have houtcome := step_outcome r input
    generalize r.step input = out at houtcome
    cases houtcome with
    | refused => exact .nil
    | faulted => exact .nil
    | diverged => exact .nil
    | parked plan hplan hcompletion hstability hnone => exact absurd hvolatile hstability
    | published plan journal hplan => exact plan_storing hstocks hstorable hfresh hplan
  · simp only [not_forall, not_not] at hfresh
    obtain ⟨revision, result, hevent⟩ := hfresh
    rw [step_confirmation hunparked hevent]
    exact ⟨hattempt, .nil⟩

end Replica

namespace Cluster

variable {c : Cluster} {histories : Nat → List LogEntry} {node : Nat} {r : Replica SegmentedLog}

/-! ### One event -/

theorem newly_same (h : c.nodes node = some r) {c' : Cluster} {r' : Replica SegmentedLog}
    (h' : c'.nodes node = some r') (hsame : r'.progress.committed = r.progress.committed) :
    newly node c c' = [] := by
  unfold newly
  rw [h, h']
  simp only [hsame]
  exact committedIn_self _ _

theorem Living.act (h : c.Living histories) {input : TimedInput} (hstorable : input.Storable)
    (hsupplied : (c.act node input).Supplied fun _ _ _ => True) :
    (c.act node input).Living fun other =>
      histories other ++ newly other c (c.act node input) := by
  cases hnode : c.nodes node with
  | none =>
    have hsame : c.act node input = c := by
      unfold Cluster.act
      rw [hnode]
    rw [hsame]
    refine ⟨h.supplied, fun other s hs => ?_, h.attempt, h.sent⟩
    obtain ⟨ranges, released, hlived, hhistory, happlied⟩ := h.lived other s hs
    refine ⟨ranges, released, hlived, ?_, happlied⟩
    rw [newly_same hs hs rfl, List.append_nil, hhistory]
  | some r =>
    have hr := h.supplied.nodes node r hnode
    obtain ⟨ranges, released, hlived, hhistory, happlied⟩ := h.lived node r hnode
    obtain ⟨hattempt, hstoring⟩ :=
      hlived.sends hr.volatile hr.unparked (h.attempt node r hnode) hstorable
    have hlived' := hlived.step hstorable False.elim
    have hact : c.act node input =
        { nodes := c.setNode node (r.step input).1
          sent := c.sent ++ envelopes node (r.step input).1 (r.step input).2
          applied := c.applied ++ releases node (r.step input).2 } := by
      unfold Cluster.act
      rw [hnode]
    rw [hact] at hsupplied ⊢
    generalize r.step input = result at hsupplied hattempt hstoring hlived' hact
    refine ⟨hsupplied, fun other s hs => ?_, fun other s hs => ?_, fun envelope hmem => ?_⟩
    · have hset : (if other = node then some result.1 else c.nodes other) = some s := hs
      show ∃ _ _, _ ∧ _ ∧ List.filter _ (c.applied ++ releases node result.2) = _
      rw [List.filter_append, releases_filter]
      by_cases heq : other = node
      · subst heq
        rw [if_pos rfl] at hset ⊢
        cases hset
        refine ⟨_, _, hlived', ?_, ?_⟩
        · rw [hhistory, List.flatten_append, List.flatten_singleton]
          unfold newly
          rw [hnode, hs]
        · rw [happlied, releases_append, releases_isApply]
      · rw [if_neg heq] at hset
        obtain ⟨ranges, released, hlived, hhistory, happlied⟩ := h.lived other s hset
        rw [if_neg (Ne.symm heq), List.append_nil]
        refine ⟨ranges, released, hlived, ?_, happlied⟩
        rw [newly_same hset hs rfl, List.append_nil, hhistory]
    · have hset : (if other = node then some result.1 else c.nodes other) = some s := hs
      split at hset
      · cases hset
        exact hattempt
      · exact h.attempt other s hset
    · rcases List.mem_append.mp hmem with hmem | hmem
      · exact h.sent envelope hmem
      · obtain ⟨effect, heffect, henvelope⟩ := List.mem_filterMap.mp hmem
        cases effect with
        | send recipient era message =>
          cases henvelope
          exact hstoring _ heffect
        | persist | apply | adminResponse => cases henvelope

/-- **One event.** -/
theorem Living.step (h : c.Living histories) (event : ClusterEvent) :
    (c.step event).Living fun other => histories other ++ newly other c (c.step event) := by
  have hsupplied : (c.step event).Supplied fun _ _ _ => True :=
    h.supplied.step fun _ _ _ _ _ _ _ => trivial
  have hstill : c.Living fun other => histories other ++ newly other c c := by
    refine ⟨h.supplied, fun other s hs => ?_, h.attempt, h.sent⟩
    obtain ⟨ranges, released, hlived, hhistory, happlied⟩ := h.lived other s hs
    refine ⟨ranges, released, hlived, ?_, happlied⟩
    rw [newly_same hs hs rfl, List.append_nil, hhistory]
  cases event with
  | input node time event =>
    unfold Cluster.step Cluster.taken at hsupplied ⊢
    simp only at hsupplied ⊢
    by_cases hpeer : event.isPeer = true
    · simp only [if_pos hpeer]
      exact hstill
    · simp only [if_neg hpeer] at hsupplied ⊢
      refine h.act (fun sender message hevent => ?_) hsupplied
      rw [show event = .peer sender message from hevent] at hpeer
      exact absurd rfl hpeer
  | deliver index time =>
    unfold Cluster.step Cluster.taken at hsupplied ⊢
    simp only at hsupplied ⊢
    cases henvelope : c.sent[index]? with
    | none => exact hstill
    | some envelope =>
      rw [henvelope] at hsupplied
      refine h.act (fun sender message hevent => ?_) hsupplied
      cases hevent
      exact h.sent envelope (List.mem_of_getElem? henvelope)
  | reclaim node =>
    show (c.reclaim node).Living fun other => histories other ++ newly other c (c.reclaim node)
    unfold Cluster.reclaim
    cases hnode : c.nodes node with
    | none => exact hstill
    | some r =>
      have hset : ∀ other s, (c.setNode node r.reclaimJournal) other = some s →
          ∃ s', c.nodes other = some s' ∧ (s = s' ∨ s = s'.reclaimJournal) := by
        intro other s hs
        have hs : (if other = node then some r.reclaimJournal else c.nodes other) = some s := hs
        split at hs
        · rename_i heq
          cases hs
          exact ⟨r, heq ▸ hnode, .inr rfl⟩
        · exact ⟨s, hs, .inl rfl⟩
      rw [show c.step (.reclaim node) = { c with nodes := c.setNode node r.reclaimJournal } by
        show c.reclaim node = _
        unfold Cluster.reclaim
        rw [hnode]] at hsupplied
      refine ⟨hsupplied, fun other s hs => ?_, fun other s hs => ?_, h.sent⟩
      · obtain ⟨s', hs', hsame⟩ := hset other s hs
        obtain ⟨ranges, released, hlived, hhistory, happlied⟩ := h.lived other s' hs'
        have hprogress : s.progress = s'.progress := by
          rcases hsame with rfl | rfl
          · rfl
          · exact reclaimJournal_progress s'
        refine ⟨ranges, released, ?_, ?_, happlied⟩
        · rcases hsame with rfl | rfl
          · exact hlived
          · exact hlived.reclaimed
        · rw [newly_same hs' hs (by rw [hprogress]), List.append_nil, hhistory]
      · obtain ⟨s', hs', rfl | rfl⟩ := hset other s hs
        · exact h.attempt other s hs'
        · rw [Replica.reclaimJournal_viewChange]
          exact h.attempt other s' hs'

/-! ### Runs -/

theorem Living.run (h : c.Living histories) (events : List ClusterEvent) :
    (c.run events).Living fun node => histories node ++ history node c events := by
  induction events generalizing c histories with
  | nil =>
    have hsame : (fun node => histories node ++ history node c []) = histories := by
      funext node
      exact List.append_nil _
    rw [hsame]
    exact h
  | cons event events ih =>
    have hnext := ih (h.step event)
    have hsame : (fun node => histories node ++ history node c (event :: events)) =
        fun node => (histories node ++ newly node c (c.step event)) ++
          history node (c.step event) events := by
      funext node
      exact (List.append_assoc _ _ _).symm
    rw [hsame]
    exact hnext

theorem living_provisioned (order : List Nat) (knobs : Nat → ViewChangeKnobs)
    (tailCapacity : Nat → Nat) :
    (provisioned order knobs tailCapacity).Living fun _ => [] where
  supplied := supplied_provisioned order knobs tailCapacity
  lived _ _ hr := ⟨[], [], Replica.lived_provision (provisioned_eq hr), rfl, rfl⟩
  attempt _ _ hr := by
    obtain ⟨-, -, -, -, -, -, rfl⟩ := provisioned_node hr
    intro attempt hsome
    cases hsome
  sent _ hmem := nomatch hmem

/-- The history of a node is gapless, up to its committed frontier. -/
theorem history_slots {order : List Nat} {knobs : Nat → ViewChangeKnobs}
    {tailCapacity : Nat → Nat} {events : List ClusterEvent}
    (hnode : ((provisioned order knobs tailCapacity).run events).nodes node = some r) :
    (history node (provisioned order knobs tailCapacity) events).map LogEntry.slot =
      List.range' (initSlot + 1) (r.progress.committed - initSlot) := by
  obtain ⟨ranges, released, hlived, hhistory, -⟩ :=
    ((living_provisioned order knobs tailCapacity).run events).lived node r hnode
  rw [List.nil_append] at hhistory
  rw [hhistory]
  exact hlived.slots

/-- A node applied the operations of its history. -/
theorem history_applied {order : List Nat} {knobs : Nat → ViewChangeKnobs}
    {tailCapacity : Nat → Nat} {events : List ClusterEvent}
    (hnode : ((provisioned order knobs tailCapacity).run events).nodes node = some r) :
    (((provisioned order knobs tailCapacity).run events).applied.filter fun release =>
        release.node = node) =
      (history node (provisioned order knobs tailCapacity) events).filterMap
        (LogEntry.release node) := by
  obtain ⟨ranges, released, hlived, hhistory, happlied⟩ :=
    ((living_provisioned order knobs tailCapacity).run events).lived node r hnode
  rw [List.nil_append] at hhistory
  rw [happlied, hlived.released, releases_applied, hhistory]

/-- **What the nodes applied**: in every run of a cluster a node has applied exactly the client
operations of the entries it committed, in order and each once; and its history is gapless, from
behind the genesis entries up to its committed frontier. -/
theorem applied_history {order : List Nat} {knobs : Nat → ViewChangeKnobs}
    {tailCapacity : Nat → Nat} {events : List ClusterEvent}
    (hnode : ((provisioned order knobs tailCapacity).run events).nodes node = some r) :
    (((provisioned order knobs tailCapacity).run events).applied.filter fun release =>
        release.node = node) =
      (history node (provisioned order knobs tailCapacity) events).filterMap
        (LogEntry.release node) ∧
    (history node (provisioned order knobs tailCapacity) events).map LogEntry.slot =
      List.range' (initSlot + 1) (r.progress.committed - initSlot) :=
  ⟨history_applied hnode, history_slots hnode⟩

/-- Node 1 proposes an operation, and node 2 acknowledges it. -/
def servedRun : List ClusterEvent :=
  [.input 1 1 .tick, .deliver 0 1, .deliver 1 1, .input 1 2 (.propose ⟨⟨0, 1⟩, []⟩), .deliver 2 2,
    .deliver 4 3]

theorem applied_history_served :
    (((provisioned [1, 2, 3] (fun _ => ⟨0, 1000⟩) fun _ => 4).run servedRun).applied.filter
        fun release => release.node = 1) =
      (history 1 (provisioned [1, 2, 3] (fun _ => ⟨0, 1000⟩) fun _ => 4) servedRun).filterMap
        (LogEntry.release 1) ∧
    (history 1 (provisioned [1, 2, 3] (fun _ => ⟨0, 1000⟩) fun _ => 4) servedRun).map
      LogEntry.slot = [3] := by
  have hrun : (((provisioned [1, 2, 3] (fun _ => ⟨0, 1000⟩) fun _ => 4).run servedRun).nodes 1).map
      (fun r => r.progress.committed) = some 3 := by
    decide +kernel
  obtain ⟨r, hr, hcommitted⟩ := Option.map_eq_some_iff.mp hrun
  have hhistory := applied_history hr
  rw [hcommitted] at hhistory
  exact hhistory

end Cluster

end UvrrCore
