import UvrrCore.Acknowledged
import UvrrCore.Lifecycle
import UvrrCore.Maelstrom.Answered

/-!
# The deferred latch of the bench

A host that its boot gate finds crashed runs on under the bump of its identity. The markers that
say so are written late: the host announces the bump on every tick until the node votes, and then
tries the latch, which asks the core for a witness that the node serves as a voter.

`NodeRunner` is such a host from its reopening on. The store rides in the marker session from the
boot on; the write-through behind a publication looks for it where it lay before, and writes
nothing. A second init, and the stop, end the life and are no part of it.

The announcement stops at the weight alone, so a tick that finds the node voting and not serving,
or a store that fails, leaves the latch behind for good.

## Main results

* `latched_iff_attempts`: at a tick that ends with a witness the latch is written, unless an
  earlier tick wasted its attempt.
* `latch_forgotten`: a tick between the vote of the bump and the view that admits it.
-/

namespace UvrrCore

/-! ### What a step leaves of a replica -/

namespace Replica

variable {J : Type} {r : Replica J}

@[simp] theorem faultNode_own (r : Replica J) (fault : Fault) :
    (r.faultNode fault).own = r.own := by
  rcases faultNode_cases r fault with heq | ⟨progress, heq, -⟩
  · rw [heq]
  · rw [heq]

theorem faultNode_config (r : Replica J) (fault : Fault) :
    (r.faultNode fault).progress.config = r.progress.config := by
  rcases faultNode_cases r fault with heq | ⟨progress, heq, hdata⟩
  · rw [heq]
  · rw [heq]
    exact (congrArg ProgressData.config hdata :)

theorem dropPlan_config {diagnostic : Diagnostic} {kind : InputKind} {plan : PlannedTransition}
    (h : r.dropPlan diagnostic kind = .ok plan) : plan.candidate.config = r.progress.config := by
  obtain ⟨candidate, hsame, rfl⟩ := dropPlan_ok h
  exact (congrArg ProgressData.config hsame :)

variable [Journal J] {input : TimedInput}

/-- No input changes the identity a replica runs under. -/
theorem step_own (r : Replica J) (input : TimedInput) : (r.step input).1.own = r.own := by
  have houtcome := step_outcome r input
  generalize r.step input = stepped at houtcome
  cases houtcome with
  | refused => rfl
  | faulted fault => exact faultNode_own r fault
  | diverged plan => exact faultNode_own _ _
  | parked plan => rfl
  | published plan journal => rfl

/-- An input whose plan keeps the era table leaves it. -/
theorem step_config (h : ∀ plan, r.plan input = .ok plan →
    plan.candidate.config = r.progress.config) :
    (r.step input).1.progress.config = r.progress.config := by
  have houtcome := step_outcome r input
  generalize r.step input = stepped at houtcome
  cases houtcome with
  | refused => rfl
  | faulted fault => exact faultNode_config r fault
  | diverged plan => exact faultNode_config _ _
  | parked plan => rfl
  | published plan journal hplan => exact h plan hplan

theorem planReconfigure_config {op : SystemOperation} {pivot : Option Pivot}
    {plan : PlannedTransition} (h : r.planReconfigure op pivot = .ok plan) :
    plan.candidate.config = r.progress.config := by
  obtain ⟨record, -, h⟩ := bind_eq_ok.mp h
  obtain ⟨slot, -, h⟩ := bind_eq_ok.mp h
  obtain ⟨table, -, h⟩ := bind_eq_ok.mp h
  obtain ⟨⟨recipients, planned⟩, -, h⟩ := bind_eq_ok.mp h
  obtain ⟨candidate, hcandidate, h⟩ := bind_eq_ok.mp h
  cases pure_eq_ok.mp h
  exact (congrArg ProgressData.config (candidateWith_ok hcandidate) :)

theorem planReincarnation_config {sender : Nat} {message : Message} {kind : InputKind}
    {plan : PlannedTransition} (h : r.planReincarnation sender message kind = .ok plan) :
    plan.candidate.config = r.progress.config := by
  unfold planReincarnation at h
  simp only at h
  split at h
  · split at h
    · exact dropPlan_config h
    · split at h
      · cases h
      · split at h
        · obtain ⟨inner, hinner, h⟩ := bind_eq_ok.mp h
          cases pure_eq_ok.mp h
          exact (dropPlan_config hinner :)
        · split at h
          · obtain ⟨inner, hinner, h⟩ := bind_eq_ok.mp h
            cases pure_eq_ok.mp h
            exact (planReconfigure_config hinner :)
          · obtain ⟨inner, hinner, h⟩ := bind_eq_ok.mp h
            cases pure_eq_ok.mp h
            exact (dropPlan_config hinner :)
  · exact dropPlan_config h

/-- An announcement leaves the era table, also where the announcing node leads. -/
theorem planReincarnate_config {old : Nat} {kind : InputKind} {plan : PlannedTransition}
    (h : r.planReincarnate old kind = .ok plan) :
    plan.candidate.config = r.progress.config := by
  rcases planReincarnate_ok h with hdrop | ⟨announcement, -, -, -, ⟨-, hled⟩ | ⟨-, hsent⟩⟩
  · exact dropPlan_config hdrop
  · exact planReincarnation_config hled
  · obtain ⟨candidate, hsame, rfl⟩ := emitPlan_ok hsent
    exact (congrArg ProgressData.config hsame :)

theorem step_reincarnate_config {old : Nat} (hevent : input.event = .reincarnate old) :
    (r.step input).1.progress.config = r.progress.config := by
  refine step_config fun plan hplan => ?_
  unfold Replica.plan at hplan
  split at hplan
  · cases hplan
  · simp only at hplan
    split at hplan
    · cases hplan
    · rw [hevent] at hplan
      exact planReincarnate_config (refuseIfParked_ok hplan).2

theorem step_applied_config {slot : Nat} (hevent : input.event = .applied slot) :
    (r.step input).1.progress.config = r.progress.config := by
  refine step_config fun plan hplan => ?_
  obtain ⟨applied, candidate, -, -, hcandidate, rfl⟩ :=
    planApplied_ok (plan_applied_eq hevent hplan)
  exact (congrArg ProgressData.config (candidateWith_ok hcandidate) :)

end Replica

namespace Maelstrom

/-! ### Reopening -/

/-- The identity a boot read produced, at the position this process serves. -/
def Identity.of (id position : Nat) : Option Nat :=
  match NodeId.systemId id, NodeId.crashCounter id with
  | some system, some _ => if system = position + 1 then some id else none
  | _, _ => none

theorem Identity.of_eq {id position own : Nat} (h : Identity.of id position = some own) :
    id = own := by
  unfold Identity.of at h
  split at h
  · split at h
    · exact Option.some.inj h
    · cases h
  · cases h

/-- A progress record as it is persisted: without the era table. -/
structure PersistedProgress where
  current : Ballot
  retained : Ballot
  status : Status
  accepted : Nat
  committed : Nat
  applied : Nat
  checkpoint : Nat
  revision : Nat
  fault : Option Fault

def PersistedProgress.withTable (p : PersistedProgress) (table : EraTable) : ProgressData where
  current := p.current
  retained := p.retained
  status := p.status
  accepted := p.accepted
  committed := p.committed
  applied := p.applied
  checkpoint := p.checkpoint
  revision := p.revision
  config := table
  fault := p.fault

/-- What the state file holds. -/
structure NodeState where
  copies : SuperblockCopies
  roster : List String
  progress : PersistedProgress
  entries : List LogEntry

/-- The era table a reopening needs, folded from the entries up to the committed frontier. -/
def foldTable : (entries : List LogEntry) → (committed : Nat) → EraTable →
    Except ConfigError EraTable
  | [], _, table => .ok table
  | entry :: entries, committed, table =>
    if committed < entry.slot then .ok table
    else
      match entry.payload with
      | .system operation =>
        match table.extend operation entry.slot with
        | .error error => .error error
        | .ok table => foldTable entries committed table
      | .operation _ _ => foldTable entries committed table

/-- The journal and the era table of a later life. The replay of the service is left out. -/
def rebuild (state : NodeState) : Option (SegmentedLog × EraTable) := do
  let journal ←
    match state.entries with
    | [] => some (SegmentedLog.withTailCapacity 64)
    | first :: _ =>
      if first.slot ≠ voidSlot then none
      else
        (Journal.installSuffix (SegmentedLog.withTailCapacity 64) first.slot
          state.entries).toOption
  let table ← (foldTable state.entries state.progress.committed EraTable.genesis).toOption
  return (journal, table)

/-! ### The host of a crashed life -/

/-- How the write of a marker set ends. The set lies in one slot under a checksum: behind an
error it is there as a whole, or not at all. -/
inductive WriteOutcome where
  | done
  | failed (landed : Bool)
deriving DecidableEq, Repr

/-- **A host in the persisted mode.** -/
structure NodeRunner where
  host : Host
  /-- The markers on the disk. -/
  markers : MarkerStore
  /-- The identity of the running session, once a latch returned. -/
  session : Option Nat
  /-- The crashed identity whose latch is deferred. -/
  deferred : Option Nat
  /-- The crashed identity whose bump is announced on every tick. -/
  announce : Option Nat

/-- The host has a vote in the newest committed configuration. -/
def Host.voting (h : Host) : Bool := h.replica.isVoter h.replica.own

namespace NodeRunner

/-- The deferred latch, under the witness of the seat. -/
def latch (n : NodeRunner) (crashed : Nat) (_witness : Rejoined) (outcome : WriteOutcome) :
    NodeRunner :=
  match NodeId.nextLife crashed with
  | none => n
  | some new =>
    let copies := some (SuperblockCopies.uniform new .joining)
    match outcome with
    | .done => { n with markers := copies, session := some new, deferred := none }
    | .failed landed => { n with markers := if landed then copies else n.markers }

/-- **The deferred latch tried.** Without a witness, and behind an error, it stays deferred. -/
def settleDeferred (n : NodeRunner) (outcome : WriteOutcome) : NodeRunner :=
  match n.deferred, n.host.replica.rejoined with
  | some crashed, some witness => n.latch crashed witness outcome
  | _, _ => n

/-- **One tick**, with how a marker write in it would end. -/
def onTick (n : NodeRunner) (outcome : WriteOutcome) : NodeRunner × List Line :=
  match n.host.drive .tick with
  | (host, lines) =>
    let ticked := { n with host := host }
    match n.announce with
    | none => (ticked, lines)
    | some old =>
      if host.voting then ({ ticked with announce := none }.settleDeferred outcome, lines)
      else
        match host.drive (.reincarnate old) with
        | (host, more) => ({ ticked with host := host }, lines ++ more)

def onMessage (n : NodeRunner) (line : Line) : NodeRunner × List Line :=
  match n.host.onMessage line with
  | (host, lines) => ({ n with host := host }, lines)

/-- **A crashed life reopened** at its seat: the gate finds the markers crashed, the replica runs
under the bump, and the announcement goes out. -/
def reopenCrashed (roster : Roster) (id : String) (state : NodeState) :
    Option (NodeRunner × List Line) := do
  let position ← roster.members.findIdx? fun member => member == id
  match boot (some state.copies) with
  | some (.crashed identity) =>
    if state.roster ≠ roster.members then none
    else
      let pair ← crashedPair identity
      let own ← Identity.of pair.new position
      let crashed ← Identity.of pair.old position
      let (journal, table) ← rebuild state
      let replica ←
        (Replica.reopenFenced own weightedMajority journal (state.progress.withTable table)
          .volatile Host.knobs).toOption
      let host : Host :=
        { id := id, identity := Identity.start roster, replica := replica, tick := 0,
          pending := [], answered := [], committed := [] }
      match host.drive (.reincarnate crashed) with
      | (host, lines) =>
        return ({ host := host, markers := some state.copies, session := none,
                  deferred := some identity, announce := some crashed }, lines)
  | _ => none

/-! ### Runs -/

/-- What may happen to a life next. -/
inductive Input where
  | message (line : Line)
  | tick (outcome : WriteOutcome)
deriving DecidableEq, Repr

def step (n : NodeRunner) : Input → NodeRunner
  | .message line => (n.onMessage line).1
  | .tick outcome => (n.onTick outcome).1

def run (n : NodeRunner) (inputs : List Input) : NodeRunner := inputs.foldl step n

/-- The latch is written: nothing is deferred, and the markers name the running identity as
joining. -/
def Latched (n : NodeRunner) : Prop :=
  n.deferred = none ∧
    n.markers = some (SuperblockCopies.uniform n.host.replica.own .joining)

/-- A tick that stops the announcement and cannot write the latch: the node votes and does not
serve, or the store fails. -/
def wastes (n : NodeRunner) : Input → Bool
  | .message _ => false
  | .tick outcome =>
    match n.host.drive .tick with
    | (host, _) =>
      n.announce.isSome && host.voting &&
        (host.replica.rejoined.isNone || decide (outcome ≠ .done))

/-- No tick of the run wastes the attempt. -/
def Attempts : NodeRunner → List Input → Prop
  | _, [] => True
  | n, input :: inputs => n.wastes input = false ∧ (n.step input).Attempts inputs

end NodeRunner

/-! ### What every input of a host keeps -/

namespace Host

/-- A property of replicas that an input keeps, at any time. -/
def KeptBy (P : Replica SegmentedLog → Prop) (input : UvrrCore.Input) : Prop :=
  ∀ r time, P r → P (r.step { time := time, event := input }).1

variable {P : Replica SegmentedLog → Prop} {h : Host}

theorem step_kept {input : UvrrCore.Input} (hkept : KeptBy P input) (hp : P h.replica) :
    P (h.step input).1.replica := by
  rcases step_cases h input with ⟨refusal, -, heq⟩ | ⟨plan, effects, -, heq, -⟩
  · rw [heq]
    exact hp
  · rw [heq]
    exact hkept h.replica _ hp

/-- Routing steps the core with acknowledged applies only. -/
theorem route_kept (happlied : ∀ slot, KeptBy P (.applied slot)) (rounds : Nat)
    (effects : List Effect) (hp : P h.replica) : P (route rounds h effects).1.replica := by
  induction rounds generalizing h effects with
  | zero => exact hp
  | succ rounds ih =>
    cases effects with
    | nil => exact hp
    | cons effect effects =>
      cases effect with
      | persist intent => exact ih effects hp
      | adminResponse response => exact ih effects hp
      | send recipient era message =>
        unfold route
        split
        · exact ih effects hp
        · exact ih effects hp
      | apply slot id payload =>
        unfold route
        have hstep := step_kept (happlied slot) hp
        split
        · rename_i h' more heq
          rw [heq] at hstep
          exact ih (more ++ effects) hstep
        · rename_i h' refusal heq
          rw [heq] at hstep
          exact ih effects hstep

theorem drive_kept (happlied : ∀ slot, KeptBy P (.applied slot)) (input : UvrrCore.Input)
    (hkept : KeptBy P input) (hp : P h.replica) : P (h.drive input).1.replica := by
  have hstep := step_kept hkept hp
  unfold drive
  split
  · rename_i h' effects heq
    rw [heq] at hstep
    exact route_kept happlied _ effects hstep
  · rename_i h' refusal heq
    rw [heq] at hstep
    exact hstep

section EveryInput

variable (hkept : ∀ input, KeptBy P input)
include hkept

theorem submitMembership_kept {verb : Verb} {nodeId : Option String} {waiter : Waiter}
    (hp : P h.replica) : P (h.submitMembership verb nodeId waiter).1.replica := by
  have hpropose : ∀ operation, P (h.propose operation).1.replica := by
    intro operation
    obtain ⟨tick, pivot, -, heq⟩ := propose_cases h operation
    rw [heq]
    exact step_kept (h := { h with tick := tick }) (hkept _) hp
  unfold submitMembership
  split
  · exact hp
  · split
    · exact hp
    · rename_i node hnode
      split
      · have hproposed := hpropose (h.operationOf verb node)
        simp only
        split
        · rename_i h' effects heq
          rw [heq] at hproposed
          have hroute := route_kept (fun slot => hkept (.applied slot)) effects.length effects
            hproposed
          split
          · exact hroute
          · exact hroute
        · rename_i h' refusal heq
          rw [heq] at hproposed
          exact hproposed
      · exact hp

theorem submit_kept {request : Request} {waiter : Waiter} (hp : P h.replica) :
    P (h.submit request waiter).1.replica := by
  cases request with
  | membership verb nodeId => exact submitMembership_kept hkept hp
  | kv operation =>
    have hstep := step_kept (hkept (.propose operation)) hp
    unfold submit
    simp only
    split
    · split
      · rename_i h' effects heq
        rw [heq] at hstep
        exact route_kept (fun slot => hkept (.applied slot)) _ effects hstep
      · rename_i h' refusal heq
        rw [heq] at hstep
        exact hstep
    · exact hp

/-- **What every input keeps, every line keeps.** -/
theorem onMessage_kept {line : Line} (hp : P h.replica) : P (h.onMessage line).1.replica := by
  have hreceive : P (h.receive line).1.replica := by
    unfold receive
    split
    · exact submit_kept hkept hp
    · unfold onPeer
      split
      · exact hp
      · exact drive_kept (fun slot => hkept (.applied slot)) _ (hkept _) hp
    · exact submit_kept hkept hp
    · exact hp
    · exact hp
  exact hreceive

end EveryInput

/-- Every input keeps the identity a replica runs under. -/
theorem own_kept (own : Nat) (input : UvrrCore.Input) :
    KeptBy (fun r => r.own = own) input := fun r _ hown => (Replica.step_own r _).trans hown

/-- An announcement does not make a host vote. -/
theorem reincarnate_voting (h : Host) (old : Nat) :
    (h.drive (.reincarnate old)).1.voting = h.voting := by
  obtain ⟨hown, hconfig⟩ := drive_kept (h := h)
    (P := fun r => r.own = h.replica.own ∧ r.progress.config = h.replica.progress.config)
    (fun slot r time hr => ⟨(Replica.step_own r _).trans hr.1,
      (Replica.step_applied_config rfl).trans hr.2⟩)
    (.reincarnate old) (fun r time hr => ⟨(Replica.step_own r _).trans hr.1,
      (Replica.step_reincarnate_config rfl).trans hr.2⟩)
    ⟨rfl, rfl⟩
  unfold voting Replica.isVoter Replica.committedWeight
  rw [hown, hconfig]

/-- Only a host with a vote yields a witness. -/
theorem voting_of_rejoined {h : Host} (hseated : h.replica.rejoined.isSome) :
    h.voting = true := by
  unfold Replica.rejoined at hseated
  unfold voting Replica.isVoter Replica.committedWeight
  split at hseated
  · cases hweight : h.replica.progress.config.current.config.weightOf h.replica.own with
    | none =>
      rw [hweight] at hseated
      cases hseated
    | some weight =>
      rw [hweight] at hseated
      by_cases hvotes : 1 ≤ weight
      · exact decide_eq_true hvotes
      · simp only [dif_neg hvotes] at hseated
        cases hseated
  · cases hseated

end Host

namespace NodeRunner

/-! ### The phases of a deferred latch -/

variable {n : NodeRunner} {own : Nat}

/-- The bump is announced and its latch deferred. -/
structure Waiting (own : Nat) (n : NodeRunner) : Prop where
  runs : n.host.replica.own = own
  announced : n.announce.isSome
  deferred : ∃ crashed, n.deferred = some crashed ∧ NodeId.nextLife crashed = some own

/-- The latch is written under the running identity. -/
structure Settled (own : Nat) (n : NodeRunner) : Prop where
  runs : n.host.replica.own = own
  silent : n.announce = none
  latched : n.Latched

/-- The announcement stopped and the latch is still deferred. -/
structure Forgotten (n : NodeRunner) : Prop where
  silent : n.announce = none
  deferred : n.deferred.isSome

theorem onMessage_own (n : NodeRunner) (line : Line) :
    (n.onMessage line).1.host.replica.own = n.host.replica.own :=
  Host.onMessage_kept (Host.own_kept _) rfl

theorem tick_own (n : NodeRunner) :
    (n.host.drive .tick).1.replica.own = n.host.replica.own :=
  Host.drive_kept (fun slot => Host.own_kept _ (.applied slot)) .tick (Host.own_kept _ .tick) rfl

/-- Once the announcement stopped, a tick drives the core and does no more. -/
theorem onTick_silent (hsilent : n.announce = none) (outcome : WriteOutcome) :
    (n.onTick outcome).1 = { n with host := (n.host.drive .tick).1 } := by
  unfold onTick
  rw [hsilent]

theorem Settled.moved (hs : n.Settled own) {host : Host}
    (hown : host.replica.own = n.host.replica.own) :
    ({ n with host := host } : NodeRunner).Settled own := by
  refine ⟨hown.trans hs.runs, hs.silent, hs.latched.1, ?_⟩
  rw [hown]
  exact hs.latched.2

/-- **A latch once written stays written.** -/
theorem Settled.step (hs : n.Settled own) (input : Input) : (n.step input).Settled own := by
  cases input with
  | message line => exact hs.moved (onMessage_own n line)
  | tick outcome =>
    show Settled own (n.onTick outcome).1
    rw [onTick_silent hs.silent]
    exact hs.moved (tick_own n)

/-- **A latch once forgotten stays deferred.** -/
theorem Forgotten.step (hf : n.Forgotten) (input : Input) : (n.step input).Forgotten := by
  cases input with
  | message line => exact ⟨hf.silent, hf.deferred⟩
  | tick outcome =>
    show Forgotten (n.onTick outcome).1
    rw [onTick_silent hf.silent]
    exact ⟨hf.silent, hf.deferred⟩

theorem run_forgotten (hf : n.Forgotten) {inputs : List Input} : (n.run inputs).Forgotten := by
  induction inputs generalizing n with
  | nil => exact hf
  | cons input inputs ih => exact ih (hf.step input)

theorem wastes_silent (hsilent : n.announce = none) (input : Input) : n.wastes input = false := by
  cases input with
  | message line => rfl
  | tick outcome =>
    simp only [wastes]
    rw [hsilent]
    rfl

theorem settleDeferred_host (n : NodeRunner) (outcome : WriteOutcome) :
    (n.settleDeferred outcome).host = n.host := by
  unfold settleDeferred
  split
  · unfold latch
    split
    · rfl
    · cases outcome <;> rfl
  · rfl

/-- **The attempt, at a host with a vote**: it writes the latch, or it forgets it. -/
theorem Waiting.attempt (hw : n.Waiting own) (outcome : WriteOutcome) {host : Host}
    (hown : host.replica.own = n.host.replica.own) :
    (host.replica.rejoined.isSome ∧ outcome = .done ∧
      ({ n with host := host, announce := none }.settleDeferred outcome).Settled own) ∨
    ((host.replica.rejoined = none ∨ outcome ≠ .done) ∧
      ({ n with host := host, announce := none }.settleDeferred outcome).Forgotten) := by
  obtain ⟨crashed, hdeferred, hnext⟩ := hw.deferred
  unfold settleDeferred
  simp only [hdeferred]
  cases hwitness : host.replica.rejoined with
  | none => exact .inr ⟨.inl rfl, rfl, rfl⟩
  | some witness =>
    simp only [latch, hnext]
    cases outcome with
    | done =>
      have hruns := hown.trans hw.runs
      exact .inl ⟨rfl, rfl, hruns, rfl, rfl, by rw [hruns]⟩
    | failed landed => exact .inr ⟨.inr nofun, rfl, rfl⟩

/-- **One tick of a waiting host.** Without a vote it announces its bump again and yields no
witness. -/
theorem Waiting.tick (hw : n.Waiting own) (outcome : WriteOutcome) :
    (n.wastes (.tick outcome) = false ∧ (n.onTick outcome).1.Waiting own ∧
      (n.onTick outcome).1.host.replica.rejoined = none) ∨
    (n.wastes (.tick outcome) = false ∧ (n.onTick outcome).1.Settled own) ∨
    (n.wastes (.tick outcome) = true ∧ (n.onTick outcome).1.Forgotten ∧
      ((n.onTick outcome).1.host.replica.rejoined = none ∨ outcome ≠ .done)) := by
  have hown := tick_own n
  obtain ⟨old, hannounce⟩ := Option.isSome_iff_exists.mp hw.announced
  unfold wastes onTick
  generalize n.host.drive .tick = out at hown
  obtain ⟨host, lines⟩ := out
  simp only [hannounce] at hown ⊢
  cases hvoting : host.voting with
  | false =>
    have hquiet := Host.reincarnate_voting host old
    have hkept : (host.drive (.reincarnate old)).1.replica.own = host.replica.own :=
      Host.drive_kept (fun slot => Host.own_kept _ (.applied slot)) _ (Host.own_kept _ _) rfl
    simp only [Bool.false_eq_true, if_false, Bool.and_false, Bool.false_and]
    refine .inl ⟨trivial, ⟨hkept.trans (hown.trans hw.runs), ?_, hw.deferred⟩, ?_⟩
    · exact Option.isSome_some
    · by_contra hseated
      rw [Host.voting_of_rejoined (Option.isSome_iff_ne_none.mpr hseated), hvoting] at hquiet
      cases hquiet
  | true =>
    simp only [if_true]
    rcases hw.attempt outcome hown with ⟨hseated, hdone, hsettled⟩ | ⟨hmissed, hforgotten⟩
    · refine .inr (.inl ⟨?_, hsettled⟩)
      obtain ⟨witness, hwitness⟩ := Option.isSome_iff_exists.mp hseated
      rw [hwitness, hdone]
      rfl
    · refine .inr (.inr ⟨?_, hforgotten, ?_⟩)
      · rcases hmissed with hnone | hfailed
        · rw [hnone]
          rfl
        · simp [hfailed]
      · rw [settleDeferred_host]
        exact hmissed

/-! ### Runs of a reopened life -/

/-- **A run over its phases**: while no attempt is wasted the host waits or is settled, and behind
a wasted one the latch is forgotten. -/
theorem run_phases (inputs : List Input) (hn : n.Waiting own ∨ n.Settled own) :
    (n.Attempts inputs ∧ ((n.run inputs).Waiting own ∨ (n.run inputs).Settled own)) ∨
      (¬ n.Attempts inputs ∧ (n.run inputs).Forgotten) := by
  induction inputs generalizing n with
  | nil => exact .inl ⟨trivial, hn⟩
  | cons input inputs ih =>
    have hgoes : ∀ {m : NodeRunner}, m = n.step input → n.wastes input = false →
        (m.Waiting own ∨ m.Settled own) →
        (n.Attempts (input :: inputs) ∧ ((n.run (input :: inputs)).Waiting own ∨
          (n.run (input :: inputs)).Settled own)) ∨
          (¬ n.Attempts (input :: inputs) ∧ (n.run (input :: inputs)).Forgotten) := by
      intro m hm hspared hphase
      subst hm
      rcases ih hphase with ⟨hattempts, hrun⟩ | ⟨hnot, hforgotten⟩
      · exact .inl ⟨⟨hspared, hattempts⟩, hrun⟩
      · exact .inr ⟨fun hall => hnot hall.2, hforgotten⟩
    rcases hn with hw | hs
    · cases input with
      | message line =>
        refine hgoes rfl rfl (.inl ⟨?_, hw.announced, hw.deferred⟩)
        exact (onMessage_own n line).trans hw.runs
      | tick outcome =>
        rcases hw.tick outcome with ⟨hspared, hwaits, -⟩ | ⟨hspared, hsettled⟩ |
          ⟨hwasted, hforgotten, -⟩
        · exact hgoes rfl hspared (.inl hwaits)
        · exact hgoes rfl hspared (.inr hsettled)
        · refine .inr ⟨fun hall => ?_, run_forgotten hforgotten⟩
          have hspared := hall.1
          rw [hwasted] at hspared
          cases hspared
    · exact hgoes rfl (wastes_silent hs.silent input) (.inr (hs.step input))

theorem reopenCrashed_waits {roster : Roster} {id : String} {state : NodeState}
    {lines : List Line} (h : reopenCrashed roster id state = some (n, lines)) :
    n.Waiting n.host.replica.own := by
  obtain ⟨position, -, h⟩ := Option.bind_eq_some_iff.mp h
  split at h
  · rename_i identity hboot
    split at h
    · cases h
    · obtain ⟨pair, hpair, h⟩ := Option.bind_eq_some_iff.mp h
      obtain ⟨own, hown, h⟩ := Option.bind_eq_some_iff.mp h
      obtain ⟨crashed, -, h⟩ := Option.bind_eq_some_iff.mp h
      obtain ⟨⟨journal, table⟩, -, h⟩ := Option.bind_eq_some_iff.mp h
      obtain ⟨replica, hreplica, h⟩ := Option.bind_eq_some_iff.mp h
      obtain ⟨hn, -⟩ := Prod.mk.inj (Option.some.inj h)
      obtain ⟨new, hnext, hpair⟩ := Option.map_eq_some_iff.mp hpair
      have hbump : own = new := by
        rw [← hpair] at hown
        exact (Identity.of_eq hown).symm
      have hruns : n.host.replica.own = own := by
        rw [← hn]
        refine Host.drive_kept (fun slot => Host.own_kept own (.applied slot)) _
          (Host.own_kept own _) ?_
        obtain ⟨progress, -, hassembled⟩ :=
          Replica.reopenFenced_data (toOption_eq_some hreplica)
        exact congrArg Replica.own hassembled
      refine ⟨rfl, ?_, identity, ?_, ?_⟩
      · rw [← hn]
        rfl
      · rw [← hn]
      · rw [hruns, hbump]
        exact hnext
  · cases h

/-- **At a tick that ends with a witness, and whose write would return, the latch is written if
and only if no earlier tick wasted its attempt.** -/
theorem latched_iff_attempts {roster : Roster} {id : String} {state : NodeState}
    {lines : List Line} (h : reopenCrashed roster id state = some (n, lines))
    (inputs : List Input)
    (hseated : (n.run (inputs ++ [.tick .done])).host.replica.rejoined.isSome) :
    (n.run (inputs ++ [.tick .done])).Latched ↔ n.Attempts inputs := by
  have hlast : n.run (inputs ++ [.tick .done]) = ((n.run inputs).onTick .done).1 := by
    unfold run
    rw [List.foldl_append]
    rfl
  rw [hlast] at hseated ⊢
  rcases run_phases inputs (.inl (reopenCrashed_waits h)) with
    ⟨hattempts, hw | hs⟩ | ⟨hwasted, hf⟩
  · refine iff_of_true ?_ hattempts
    rcases hw.tick .done with ⟨-, -, hnone⟩ | ⟨-, hsettled⟩ | ⟨-, -, hmissed⟩
    · rw [hnone] at hseated
      cases hseated
    · exact hsettled.latched
    · rcases hmissed with hnone | hfailed
      · rw [hnone] at hseated
        cases hseated
      · exact absurd rfl hfailed
  · exact iff_of_true (hs.step (.tick .done)).latched hattempts
  · refine iff_of_false (fun hlatched => ?_) hwasted
    have hdeferred := (hf.step (.tick .done)).deferred
    rw [show (n.run inputs).step (.tick .done) = ((n.run inputs).onTick .done).1 from rfl,
      hlatched.1] at hdeferred
    cases hdeferred

/-! ### A seat taken behind the fence -/

/-- The first node of three crashed in its first life, with the genesis history behind it. -/
def crashedFirst : NodeState where
  copies := SuperblockCopies.uniform (NodeId.new 1 1) .joining
  roster := ["n1", "n2", "n3"]
  progress :=
    { current := { era := 1, view := 0 }, retained := { era := 1, view := 0 }, status := .normal,
      accepted := 2, committed := 2, applied := 2, checkpoint := 0, revision := 0, fault := none }
  entries := Replica.genesisEntries ((List.range 3).map Identity.genesis) 1

/-- The two operations that put the bump in the seat of the crashed identity. -/
def seating : List SystemOperation :=
  [.batch [.decrement (NodeId.new 1 1), .join (NodeId.new 1 2) 0],
    .batch [.increment (NodeId.new 1 2), .leave (NodeId.new 1 1)]]

def seatingEntries : List LogEntry :=
  seating.zipIdx.map fun step =>
    { slot := step.2 + 3, era := step.2 + 1, payload := .system step.1 }

def heard (src : String) (view : Ballot) (body : Body) : Input :=
  .message
    { src := src, dest := "n1",
      body := .vrr { header := { view := view, slot := 4 }, body := body } }

/-- The leader answers two announcements with what the node missed: the first chunk is folded up to
the era it establishes, the second one gives the bump its vote. The node is still fenced. -/
def caughtUp : List Input :=
  [heard "n2" { era := 1, view := 0 } (.newState seatingEntries 4 4 false),
    heard "n2" { era := 2, view := 1 } (.newState (seatingEntries.drop 1) 4 4 false)]

/-- The view the node is admitted to. -/
def admitted : Input :=
  heard "n3" { era := 3, view := 2 } (.startView (seatingEntries.drop 1) 4 4
    { op := .batch [.increment (NodeId.new 1 2), .leave (NodeId.new 1 1)], committedAt := 4 })

instance decidableAttempts : (n : NodeRunner) → (inputs : List Input) →
    Decidable (n.Attempts inputs)
  | _, [] => isTrue trivial
  | n, input :: inputs =>
    have := decidableAttempts (n.step input) inputs
    inferInstanceAs (Decidable (_ ∧ _))

/-- Admitted before the next tick, the node writes its latch. -/
theorem latched_iff_attempts_admitted : ∃ n lines,
    reopenCrashed Bench.threeNodes "n1" crashedFirst = some (n, lines) ∧
      (n.run (caughtUp ++ [admitted] ++ [.tick .done])).Latched := by
  have hrun : (reopenCrashed Bench.threeNodes "n1" crashedFirst).map (fun out =>
      ((out.1.run (caughtUp ++ [admitted] ++ [.tick .done])).host.replica.rejoined.isSome,
        decide (out.1.Attempts (caughtUp ++ [admitted])))) = some (true, true) := by
    decide +kernel
  obtain ⟨⟨n, lines⟩, hopened, hheld⟩ := Option.map_eq_some_iff.mp hrun
  obtain ⟨hseated, hattempts⟩ := Prod.mk.inj hheld
  exact ⟨n, lines, hopened,
    (latched_iff_attempts hopened _ hseated).mpr (of_decide_eq_true hattempts)⟩

/-- **A tick between the vote and the view forgets the latch**: at the next one the node serves and
votes under an identity its markers do not name. -/
theorem latch_forgotten : ¬ ∀ (roster : Roster) (id : String) (state : NodeState) (n : NodeRunner)
    (lines : List Line) (inputs : List Input), reopenCrashed roster id state = some (n, lines) →
      (n.run (inputs ++ [.tick .done])).host.replica.rejoined.isSome →
      (n.run (inputs ++ [.tick .done])).Latched := by
  intro hall
  have hrun : (reopenCrashed Bench.threeNodes "n1" crashedFirst).map (fun out =>
      let last := out.1.run (caughtUp ++ [.tick .done, admitted] ++ [.tick .done])
      (last.host.replica.rejoined.isSome, last.deferred)) =
      some (true, some (NodeId.new 1 1)) := by
    decide +kernel
  obtain ⟨⟨n, lines⟩, hopened, hheld⟩ := Option.map_eq_some_iff.mp hrun
  obtain ⟨hseated, hdeferred⟩ := Prod.mk.inj hheld
  have hlatched := (hall Bench.threeNodes "n1" crashedFirst n lines _ hopened hseated).1
  rw [hdeferred] at hlatched
  cases hlatched

end NodeRunner

end Maelstrom

end UvrrCore
