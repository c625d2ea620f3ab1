import UvrrCore.SegmentedLog
import UvrrCore.Replica.Dispatch

/-!
# Runs of a cluster

The replicas of a cluster and every message they ever sent. A message stays in `sent`, so that
it may be delivered any number of times, in any order, late or never. What the host sees of a run
is the list of apply effects the replicas released.

An envelope remembers its sender as it was right after the transition that released the
message; no replica reads that.
-/

namespace UvrrCore

/-- The host offers the published checkpoint to the journal. -/
def Replica.reclaimJournal (r : Replica SegmentedLog) : Replica SegmentedLog :=
  if r.progress.checkpoint = Slot.none then r
  else { r with journal := r.journal.reclaimThrough r.progress.checkpoint }

structure Envelope where
  sender : Nat
  recipient : Nat
  message : Message
  origin : Replica SegmentedLog

/-- An apply effect and the node that released it. -/
structure Release where
  node : Nat
  slot : Nat
  operationId : OperationId
  payload : List UInt8
deriving DecidableEq, Repr

structure Cluster where
  nodes : Nat → Option (Replica SegmentedLog)
  sent : List Envelope
  applied : List Release

/-- What may happen next. -/
inductive ClusterEvent where
  /-- An input of a node's own host, which makes up no peer's message. -/
  | input (node time : Nat) (event : Input)
  /-- The delivery of a message sent before. -/
  | deliver (index time : Nat)
  | reclaim (node : Nat)
deriving DecidableEq, Repr

namespace Cluster

/-- The messages among the effects of a transition. -/
def envelopes (sender : Nat) (origin : Replica SegmentedLog) (effects : List Effect) :
    List Envelope :=
  effects.filterMap fun effect =>
    match effect with
    | .send recipient _ message =>
      some { sender := sender, recipient := recipient, message := message, origin := origin }
    | _ => none

def releases (node : Nat) (effects : List Effect) : List Release :=
  effects.filterMap fun effect =>
    match effect with
    | .apply slot id payload =>
      some { node := node, slot := slot, operationId := id, payload := payload }
    | _ => none

/-- The nodes with one of them replaced. -/
def setNode (c : Cluster) (node : Nat) (r : Replica SegmentedLog) : Nat →
    Option (Replica SegmentedLog) := fun other => if other = node then some r else c.nodes other

/-- An input taken by a node. -/
def act (c : Cluster) (node : Nat) (input : TimedInput) : Cluster :=
  match c.nodes node with
  | none => c
  | some r =>
    match r.step input with
    | (r', effects) =>
      { nodes := c.setNode node r'
        sent := c.sent ++ envelopes node r' effects
        applied := c.applied ++ releases node effects }

/-- The node an event gives an input to, and the input; messages come by delivery only. -/
def taken (c : Cluster) : ClusterEvent → Option (Nat × TimedInput)
  | .input node time event =>
    if event.isPeer then none else some (node, { time := time, event := event })
  | .deliver index time =>
    match c.sent[index]? with
    | none => none
    | some envelope =>
      some (envelope.recipient,
        { time := time, event := .peer envelope.sender envelope.message })
  | .reclaim _ => none

def reclaim (c : Cluster) (node : Nat) : Cluster :=
  match c.nodes node with
  | none => c
  | some r => { c with nodes := c.setNode node r.reclaimJournal }

def step (c : Cluster) (event : ClusterEvent) : Cluster :=
  match event with
  | .reclaim node => c.reclaim node
  | event =>
    match c.taken event with
    | none => c
    | some (node, input) => c.act node input

def run (c : Cluster) (events : List ClusterEvent) : Cluster := events.foldl step c

/-- A property of every step of a run: of the cluster before it and the event. -/
def Along (P : Cluster → ClusterEvent → Prop) : Cluster → List ClusterEvent → Prop
  | _, [] => True
  | c, event :: events => P c event ∧ Along P (c.step event) events

instance decidableAlong (P : Cluster → ClusterEvent → Prop) [∀ c event, Decidable (P c event)] :
    (c : Cluster) → (events : List ClusterEvent) → Decidable (Along P c events)
  | _, [] => isTrue trivial
  | c, event :: events =>
    have := decidableAlong P (c.step event) events
    inferInstanceAs (Decidable (P c event ∧ Along P (c.step event) events))

/-- An invariant that steps of one kind keep shows every step of such a run to be of another. -/
theorem along_of_step {P : Cluster → ClusterEvent → Prop} {Q : Cluster → ClusterEvent → Prop}
    {I : Cluster → Prop} (hstep : ∀ c event, I c → P c event → I (c.step event) ∧ Q c event)
    {c : Cluster} (hc : I c) {events : List ClusterEvent} (h : Along P c events) :
    Along Q c events := by
  induction events generalizing c with
  | nil => trivial
  | cons event events ih =>
    obtain ⟨hfirst, hrest⟩ := h
    obtain ⟨hnext, hq⟩ := hstep c event hc hfirst
    exact ⟨hq, ih hnext hrest⟩

theorem along_append {P : Cluster → ClusterEvent → Prop} {c : Cluster}
    {events later : List ClusterEvent} :
    Along P c (events ++ later) ↔ Along P c events ∧ Along P (c.run events) later := by
  induction events generalizing c with
  | nil => simp [Along, run]
  | cons event events ih =>
    rw [List.cons_append, Along, Along, ih, and_assoc]
    rfl

/-- **A fresh cluster**: every member of the genesis order provisioned over an empty log, with
tuning values of its own. -/
def provisioned (order : List Nat) (knobs : Nat → ViewChangeKnobs) (tailCapacity : Nat → Nat) :
    Cluster where
  nodes node :=
    match Replica.provision node order weightedMajority
        (SegmentedLog.withTailCapacity (tailCapacity node)) .volatile (knobs node) with
    | .ok r => some r
    | .error _ => none
  sent := []
  applied := []

/-- What a node of a fresh cluster is. -/
theorem provisioned_node {order : List Nat} {knobs : Nat → ViewChangeKnobs}
    {tailCapacity : Nat → Nat} {node : Nat} {r : Replica SegmentedLog}
    (h : (provisioned order knobs tailCapacity).nodes node = some r) :
    ∃ table journal progress, Replica.genesisTable order = .ok table ∧
      Journal.installSuffix (SegmentedLog.withTailCapacity (tailCapacity node)) voidSlot
        (Replica.genesisEntries order table.current.era) = .ok journal ∧
      Progress.reconstitute
        { current := { era := table.current.era, view := View.initial }
          retained := { era := table.current.era, view := View.initial }
          status := .joining, accepted := initSlot, committed := initSlot, applied := initSlot
          checkpoint := Slot.none, revision := 0, config := table, fault := none } =
        .ok progress ∧
      r = Replica.assemble node weightedMajority journal .volatile (knobs node) progress := by
  simp only [provisioned] at h
  split at h
  · rename_i _ _ hprovision
    cases h
    unfold Replica.provision at hprovision
    split at hprovision
    · cases hprovision
    · split at hprovision
      · cases hprovision
      · rename_i table htable
        split at hprovision
        · cases hprovision
        · split at hprovision
          · cases hprovision
          · simp only at hprovision
            split at hprovision
            · cases hprovision
            · rename_i journal hjournal
              split at hprovision
              · cases hprovision
              · rename_i progress hprogress
                cases hprovision
                exact ⟨table, journal, progress, htable, hjournal, hprogress, rfl⟩
  · cases h

theorem provisioned_member {order : List Nat} {knobs : Nat → ViewChangeKnobs}
    {tailCapacity : Nat → Nat} {node : Nat} {r : Replica SegmentedLog}
    (h : (provisioned order knobs tailCapacity).nodes node = some r) : node ∈ order := by
  by_contra hnot
  simp only [provisioned] at h
  split at h
  · rename_i _ _ hprovision
    unfold Replica.provision at hprovision
    split at hprovision
    · cases hprovision
    · split at hprovision
      · cases hprovision
      · rw [if_pos (by simpa using hnot)] at hprovision
        cases hprovision
  · cases h

/-! ### One node through one step -/

theorem reclaimJournal_progress (r : Replica SegmentedLog) :
    r.reclaimJournal.progress = r.progress := by
  unfold Replica.reclaimJournal
  split <;> rfl

/-- A step changes one node at most: by an input it takes, or by reclaiming its journal. -/
theorem step_node {c : Cluster} {event : ClusterEvent} {node : Nat}
    {r r' : Replica SegmentedLog} (hr : c.nodes node = some r)
    (hr' : (c.step event).nodes node = some r') :
    r' = r ∨ (∃ input, c.taken event = some (node, input) ∧ r' = (r.step input).1) ∨
      r' = r.reclaimJournal := by
  have hact : ∀ other input, (c.act other input).nodes node = some r' →
      r' = r ∨ (other = node ∧ r' = (r.step input).1) := by
    intro other input h
    unfold act at h
    by_cases heq : other = node
    · subst heq
      simp only [hr, setNode, if_pos] at h
      exact Or.inr ⟨rfl, (Option.some.inj h).symm⟩
    · cases hother : c.nodes other with
      | none =>
        simp only [hother] at h
        exact Or.inl (Option.some.inj (h.symm.trans hr))
      | some s =>
        simp only [hother, setNode, if_neg (Ne.symm heq)] at h
        exact Or.inl (Option.some.inj (h.symm.trans hr))
  have htaken : ∀ next : Cluster,
      next = (match c.taken event with
        | none => c
        | some (other, input) => c.act other input) →
      next.nodes node = some r' →
      r' = r ∨ (∃ input, c.taken event = some (node, input) ∧ r' = (r.step input).1) ∨
        r' = r.reclaimJournal := by
    intro next hnext h
    cases htake : c.taken event with
    | none =>
      rw [hnext, htake] at h
      exact Or.inl (Option.some.inj (h.symm.trans hr))
    | some pair =>
      rw [hnext, htake] at h
      rcases hact pair.1 pair.2 h with rfl | ⟨rfl, heq⟩
      · exact Or.inl rfl
      · exact Or.inr (Or.inl ⟨pair.2, rfl, heq⟩)
  cases event with
  | input other time event => exact htaken _ rfl hr'
  | deliver index time => exact htaken _ rfl hr'
  | reclaim other =>
    simp only [step, reclaim] at hr'
    split at hr'
    · exact Or.inl (Option.some.inj (hr'.symm.trans hr))
    · rename_i s hs
      simp only [setNode] at hr'
      split at hr'
      · rename_i heq
        subst heq
        rw [hr] at hs
        cases hs
        exact Or.inr (Or.inr (Option.some.inj hr').symm)
      · exact Or.inl (Option.some.inj (hr'.symm.trans hr))

/-- No step adds a node. -/
theorem step_node_exists {c : Cluster} {event : ClusterEvent} {node : Nat}
    {r' : Replica SegmentedLog} (hr' : (c.step event).nodes node = some r') :
    ∃ r, c.nodes node = some r := by
  have hset : ∀ other s s', c.nodes other = some s → c.setNode other s' node = some r' →
      ∃ r, c.nodes node = some r := by
    intro other s s' hs h
    unfold setNode at h
    split at h
    · rename_i heq
      exact ⟨s, heq ▸ hs⟩
    · exact ⟨r', h⟩
  have hact : ∀ other input, (c.act other input).nodes node = some r' →
      ∃ r, c.nodes node = some r := by
    intro other input h
    unfold act at h
    split at h
    · exact ⟨r', h⟩
    · rename_i s hs
      exact hset other s _ hs h
  cases event with
  | input other time event =>
    simp only [step] at hr'
    split at hr'
    · exact ⟨r', hr'⟩
    · exact hact _ _ hr'
  | deliver index time =>
    simp only [step] at hr'
    split at hr'
    · exact ⟨r', hr'⟩
    · exact hact _ _ hr'
  | reclaim other =>
    simp only [step, reclaim] at hr'
    split at hr'
    · exact ⟨r', hr'⟩
    · rename_i s hs
      exact hset other s _ hs hr'

/-- **Agreement**: what two replicas apply at one slot is the same operation. -/
def Agreement (c : Cluster) : Prop :=
  ∀ first ∈ c.applied, ∀ second ∈ c.applied, first.slot = second.slot →
    first.operationId = second.operationId ∧ first.payload = second.payload

instance (c : Cluster) : Decidable c.Agreement :=
  inferInstanceAs (Decidable (∀ first ∈ c.applied, ∀ second ∈ c.applied, _))

end Cluster

end UvrrCore
