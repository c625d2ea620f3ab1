import UvrrCore.Acknowledged
import UvrrCore.Demo.Node
import UvrrCore.Emitted

/-!
# What a node of the demo vouches for

An acknowledgement, a fence and an announced view say something of the replica that sent them, and
a replica does not go back on it: its ballot and its committed frontier only grow, and what it
accepted in a ballot it did accept.

* `plan_attests`: what the messages of a plan say of the record behind it.
* `Transition.takes_committed`: a frontier taken from a prepare or a commit is committed.
* `DemoNode.Sound.step`: what one step of a node does to it, to its ledger and to the wire.
* `DemoNode.walk_settles`: the walk of the parked applies has rounds enough.
-/

namespace UvrrCore

open Replica

/-! ### What a message says of its sender -/

/-- What a message says of the ballot it was planned in and of the record behind the plan. -/
def Attests (ballot : Ballot) (record : ProgressData) (message : Message) : Prop :=
  match message.tag with
  | .prepareOk => message.header.view = ballot ∧ message.header.slot ≤ record.accepted
  | .startViewChange | .startView => message.header.view ≤ record.current
  | _ => True

variable {J : Type} [Journal J]

/-- Every replica sends what attests. -/
theorem attests_licence (r : Replica J) :
    r.Licence (fun _ _ => True) (Attests r.progress.current) where
  plain := by
    intro record message hplain
    unfold Attests Message.tag
    cases hbody : message.body with
    | prepareOk | startViewChange | startView =>
      rw [hbody] at hplain
      cases hplain
    | _ => trivial
  acknowledges := fun hslot => ⟨rfl, hslot⟩
  fences := fun hview => hview.le
  reports := by
    intro record message retained accepted committed suffix kind proof hbody _
    unfold Attests Message.tag
    rw [hbody]
    trivial
  announces := fun hview _ => hview.le
  serves := trivial
  packs := fun _ => trivial
  bare := trivial
  collected := fun _ _ => ⟨fun _ _ _ => trivial, fun _ _ _ => trivial⟩

/-- **What a plan of a fresh input attests.** -/
theorem plan_attests {r : Replica J} {input : TimedInput} {plan : PlannedTransition}
    (hfresh : ∀ revision result, input.event ≠ .stabilityConfirmation revision result)
    (h : r.plan input = .ok plan) : Speaks (Attests r.progress.current) plan := by
  have hcarries : ∀ message : Message, message.Reports fun _ _ => True := by
    intro message _ _ _ _ _ _ _
    trivial
  exact plan_speaks (attests_licence r) (fun _ message _ => hcarries message) hfresh h

omit [Journal J] in
/-- A drop names why. -/
theorem named_of_clean {r : Replica J} {diagnostic : Diagnostic} {kind : InputKind}
    {plan : PlannedTransition} (h : r.dropPlan diagnostic kind = .ok plan)
    (hclean : plan.diagnostic = .none) : diagnostic = .none := by
  obtain ⟨candidate, -, rfl⟩ := dropPlan_ok h
  exact hclean

omit [Journal J] in
theorem fault_of_breach {r : Replica J} {kind : InputKind} {plan : PlannedTransition}
    (h : r.breachPlan kind = .ok plan) : plan.fault ≠ none := by
  obtain ⟨candidate, -, rfl⟩ := breachPlan_ok h
  exact Option.some_ne_none _

/-- What a message is planned by that was not dropped. -/
theorem plan_peerClean {r : Replica J} {input : TimedInput} {sender : Nat} {message : Message}
    {plan : PlannedTransition} (hevent : input.event = .peer sender message)
    (hplan : r.plan input = .ok plan) (hclean : plan.diagnostic = .none) :
    ∃ handled, r.planBody sender message input.time input.event.kind = .ok handled ∧
      (plan = handled ∨ plan = handled.withActivity input.time) := by
  cases hforeign : r.foreignSender sender message with
  | false => exact plan_peerBody hevent hforeign hplan
  | true =>
    unfold Replica.plan at hplan
    split at hplan
    · cases hplan
    · simp only at hplan
      split at hplan
      · cases hplan
      · rw [hevent] at hplan
        obtain ⟨-, hpeer⟩ := refuseIfParked_ok hplan
        unfold planPeer at hpeer
        rw [if_pos hforeign] at hpeer
        cases named_of_clean hpeer hclean

namespace Demo

/-! ### The frontier a message carries -/

namespace Transition

/-- The fold up to a frontier gets there: the era window does not stop it. -/
def folds (t : Transition) (overlay : List LogEntry) (through : Nat) : Bool :=
  let committed := t.before.progress.committed
  match t.before.foldCommitted overlay committed (max committed through) true with
  | .ok folded => !folded.stopped
  | .error _ => false

/-- **A frontier taken**: from a prepare or a commit of the current ballot that was not dropped,
with a frontier that covers a slot of the log. -/
def takes (t : Transition) (slot : Nat) : Bool :=
  let accepted := t.before.progress.accepted
  match t.input.event with
  | .peer _ message =>
    message.header.view == t.before.progress.current && t.plan.diagnostic == .none &&
      match message.body with
      | .prepare entry frontier =>
        if entry.slot ≤ accepted then
          decide (slot ≤ min frontier accepted) && t.folds [] (min frontier accepted)
        else decide (slot ≤ min frontier entry.slot) && t.folds [entry] (min frontier entry.slot)
      | .commit frontier =>
        decide (slot ≤ min frontier accepted) && t.folds [] (min frontier accepted)
      | _ => false
  | _ => false

variable {t : Transition} {slot : Nat}

/-- A fold that gets there covers its range. -/
theorem folds_covers {overlay : List LogEntry} {through : Nat} {folded : FoldedCommit}
    (hfolds : t.folds overlay through = true)
    (hfold : t.before.foldCommitted overlay t.before.progress.committed
      (max t.before.progress.committed through) true = .ok folded) :
    through ≤ folded.covered := by
  unfold folds at hfolds
  simp only [hfold, Bool.not_eq_true'] at hfolds
  obtain ⟨end_, hend, rfl⟩ := foldCommitted_ok hfold
  have hrounds : max t.before.progress.committed through -
      (t.before.folding t.before.progress.committed).covered ≤
        max t.before.progress.committed through - t.before.progress.committed := Nat.le_refl _
  exact (Nat.le_max_right _ _).trans (foldSlotsThrough_complete hrounds hend hfolds)

/-- A prepare of a held slot commits through what the fold covers. -/
theorem held_covers {sender frontier : Nat} {entry : LogEntry} {status : Status}
    {kind : InputKind} {plan : PlannedTransition} (hclean : plan.diagnostic = .none)
    (hfault : plan.fault = none)
    (hfolds : t.folds [] (min frontier t.before.progress.accepted) = true)
    (h : t.before.planHeldPrepare sender entry frontier status kind = .ok plan) :
    min frontier t.before.progress.accepted ≤ plan.candidate.committed := by
  simp only [planHeldPrepare] at h
  split at h
  · cases h
  · split at h
    · cases named_of_clean h hclean
    · split at h
      · cases h
      · cases named_of_clean h hclean
      · exact absurd hfault (fault_of_breach h)
      · rename_i folded hfold
        obtain ⟨applied, -, h⟩ := bind_eq_ok.mp h
        obtain ⟨candidate, hcandidate, h⟩ := bind_eq_ok.mp h
        obtain ⟨applies, -, h⟩ := bind_eq_ok.mp h
        cases pure_eq_ok.mp h
        show _ ≤ candidate.committed
        rw [candidateWith_ok hcandidate]
        exact folds_covers hfolds hfold

/-- The next prepare commits through what the fold covers. -/
theorem next_covers {sender frontier : Nat} {view : Ballot} {entry : LogEntry} {status : Status}
    {kind : InputKind} {plan : PlannedTransition} (hclean : plan.diagnostic = .none)
    (hfault : plan.fault = none) (hfolds : t.folds [entry] (min frontier entry.slot) = true)
    (h : t.before.planNextPrepare sender view entry frontier status kind = .ok plan) :
    min frontier entry.slot ≤ plan.candidate.committed := by
  simp only [planNextPrepare] at h
  split at h
  · cases h
  · cases named_of_clean h hclean
  · split at h
    · cases named_of_clean h hclean
    · exact absurd hfault (fault_of_breach h)
  · rename_i folded hfold
    obtain ⟨refusal, -, h⟩ := bind_eq_ok.mp h
    split at h
    · cases named_of_clean h hclean
    · split at h
      · cases named_of_clean h hclean
      · obtain ⟨applied, -, h⟩ := bind_eq_ok.mp h
        obtain ⟨candidate, hcandidate, h⟩ := bind_eq_ok.mp h
        obtain ⟨applies, -, h⟩ := bind_eq_ok.mp h
        cases pure_eq_ok.mp h
        show _ ≤ candidate.committed
        rw [candidateWith_ok hcandidate]
        exact folds_covers hfolds hfold

/-- A commit that was not dropped commits through what the fold covers. -/
theorem commit_covers {sender time frontier : Nat} {message : Message} {kind : InputKind}
    {plan : PlannedTransition} (hview : message.header.view = t.before.progress.current)
    (hclean : plan.diagnostic = .none) (hfault : plan.fault = none)
    (hfolds : t.folds [] (min frontier t.before.progress.accepted) = true)
    (h : t.before.planCommit sender message frontier time kind = .ok plan) :
    min frontier t.before.progress.accepted ≤ plan.candidate.committed := by
  cases planCommit_cases h with
  | dropped diagnostic hdrop hnamed => exact absurd (named_of_clean hdrop hclean) hnamed
  | breached hbreach => exact absurd hfault (fault_of_breach hbreach)
  | signalled hahead => exact absurd hview hahead.ne'
  | steady hemit hknown =>
    obtain ⟨candidate, hsame, rfl⟩ := emitPlan_ok hemit
    show _ ≤ candidate.committed
    rw [hsame]
    exact (Nat.le_max_right _ _).trans hknown.le
  | learned _ _ folded applied candidate applies hfold _ hcandidate _ hplan =>
    subst hplan
    show _ ≤ candidate.committed
    rw [candidateWith_ok hcandidate]
    exact folds_covers hfolds hfold

/-- **A frontier taken is committed.** -/
theorem takes_committed (hplan : t.before.plan t.input = .ok t.plan) (hfault : t.plan.fault = none)
    (htakes : t.takes slot = true) : slot ≤ t.plan.candidate.committed := by
  unfold takes at htakes
  cases hevent : t.input.event with
  | peer sender message =>
    simp only [hevent, Bool.and_eq_true, beq_iff_eq] at htakes
    obtain ⟨⟨hcurrent, hclean⟩, hbody⟩ := htakes
    obtain ⟨handled, hhandled, hsame⟩ := plan_peerClean hevent hplan hclean
    have hcandidate : t.plan.candidate = handled.candidate := by
      rcases hsame with hsame | hsame
      · rw [hsame]
      · rw [hsame]
        rfl
    have hclean' : handled.diagnostic = .none := by
      rcases hsame with hsame | hsame
      · exact hsame ▸ hclean
      · rw [hsame] at hclean
        exact hclean
    have hfault' : handled.fault = none := by
      rcases hsame with hsame | hsame
      · exact hsame ▸ hfault
      · rw [hsame] at hfault
        exact hfault
    rw [hcandidate]
    unfold planBody at hhandled
    cases hkind : message.body with
    | prepare entry frontier =>
      simp only [hkind] at hbody hhandled
      cases planPrepare_cases hhandled with
      | dropped diagnostic hdrop hnamed => exact absurd (named_of_clean hdrop hclean') hnamed
      | signalled hahead => exact absurd hcurrent hahead.ne'
      | held _ _ hslot hheld =>
        rw [if_pos hslot, Bool.and_eq_true, decide_eq_true_iff] at hbody
        exact hbody.1.trans (held_covers hclean' hfault' hbody.2 hheld)
      | gap next drop hdrop hgap =>
        obtain ⟨candidate, -, rfl⟩ := dropPlan_ok hdrop
        rw [hgap] at hclean'
        cases hclean'
      | next _ _ hslot hnext =>
        rw [if_neg (by omega), Bool.and_eq_true, decide_eq_true_iff] at hbody
        exact hbody.1.trans (next_covers hclean' hfault' hbody.2 hnext)
    | commit frontier =>
      simp only [hkind, Bool.and_eq_true, decide_eq_true_iff] at hbody hhandled
      exact hbody.1.trans (commit_covers hcurrent hclean' hfault' hbody.2 hhandled)
    | _ =>
      simp only [hkind] at hbody
      cases hbody
  | _ =>
    simp only [hevent] at htakes
    cases htakes

end Transition

/-! ### One node -/

namespace DemoNode

/-- What a message it sent says of a node. -/
def Vouches (n : DemoNode) (message : Message) : Prop :=
  match message.tag with
  | .prepareOk => ∃ t ∈ n.trail, t.before.progress.current = message.header.view ∧
      message.header.slot ≤ t.plan.candidate.accepted
  | .startViewChange | .startView => message.header.view ≤ n.replica.progress.current
  | _ => True

/-- **What holds of a node**: nothing is parked, and nothing it published is gone back on. -/
structure Sound (n : DemoNode) : Prop where
  volatile : n.replica.stability = .volatile
  unparked : n.replica.parked = none
  planned : ∀ t ∈ n.trail, t.before.plan t.input = .ok t.plan ∧ t.plan.fault = none
  committed : ∀ t ∈ n.trail, t.plan.candidate.committed ≤ n.replica.progress.committed

/-- **What a node does** over any part of a step. -/
structure Goes (n n' : DemoNode) (flights : List Flight) : Prop where
  own : n'.own = n.own
  sound : n'.Sound
  current : n.replica.progress.current ≤ n'.replica.progress.current
  committed : n.replica.progress.committed ≤ n'.replica.progress.committed
  trail : n.trail ⊆ n'.trail
  senders : ∀ flight ∈ flights, flight.sender = n.own
  vouches : ∀ flight ∈ flights, n'.Vouches flight.message
  released : n'.released = n.released ++ flights.map Flight.datagram
  ledger : n'.ledger = n.ledger.recordAll (flights.map Flight.datagram)

variable {n n' n'' : DemoNode} {flights more : List Flight}

/-- A node does not go back on what it sent. -/
theorem Vouches.later {message : Message} (h : n.Vouches message) (htrail : n.trail ⊆ n'.trail)
    (hcurrent : n.replica.progress.current ≤ n'.replica.progress.current) :
    n'.Vouches message := by
  unfold Vouches at h ⊢
  cases htag : message.tag with
  | prepareOk =>
    rw [htag] at h
    obtain ⟨t, hmem, hattests⟩ := h
    exact ⟨t, htrail hmem, hattests⟩
  | startViewChange | startView =>
    rw [htag] at h
    exact h.trans hcurrent
  | _ => trivial

namespace Goes

theorem refl (hs : n.Sound) : Goes n n [] where
  own := rfl
  sound := hs
  current := le_refl _
  committed := Nat.le_refl _
  trail := List.Subset.refl _
  senders := fun _ hmem => by cases hmem
  vouches := fun _ hmem => by cases hmem
  released := (List.append_nil _).symm
  ledger := rfl

theorem trans (h : Goes n n' flights) (h' : Goes n' n'' more) : Goes n n'' (flights ++ more) where
  own := h'.own.trans h.own
  sound := h'.sound
  current := h.current.trans h'.current
  committed := h.committed.trans h'.committed
  trail := List.Subset.trans h.trail h'.trail
  senders := fun flight hmem => by
    rcases List.mem_append.mp hmem with hmem | hmem
    · exact h.senders flight hmem
    · exact (h'.senders flight hmem).trans h.own
  vouches := fun flight hmem => by
    rcases List.mem_append.mp hmem with hmem | hmem
    · exact (h.vouches flight hmem).later h'.trail h'.current
    · exact h'.vouches flight hmem
  released := by
    rw [h'.released, h.released, List.map_append, List.append_assoc]
  ledger := by
    rw [h'.ledger, h.ledger, List.map_append, Ledger.recordAll_append]

/-- Only the replica, the trail and the ledger of the node before matter. -/
theorem start {m : DemoNode} (h : Goes m n' flights) (hown : m.own = n.own)
    (hreplica : m.replica = n.replica) (htrail : m.trail = n.trail)
    (hreleased : m.released = n.released) (hledger : m.ledger = n.ledger) :
    Goes n n' flights where
  own := h.own.trans hown
  sound := h.sound
  current := hreplica ▸ h.current
  committed := hreplica ▸ h.committed
  trail := htrail ▸ h.trail
  senders := hown ▸ h.senders
  vouches := h.vouches
  released := hreleased ▸ h.released
  ledger := hledger ▸ h.ledger

end Goes

/-! ### The effects of a publication -/

/-- What the routing of effects does. -/
structure Routed (n n' : DemoNode) (effects : List Effect) (flights : List Flight) : Prop where
  own : n'.own = n.own
  replica : n'.replica = n.replica
  trail : n'.trail = n.trail
  senders : ∀ flight ∈ flights, flight.sender = n.own
  meets : ∀ P, Sending P effects → ∀ flight ∈ flights, P flight.message
  released : n'.released = n.released ++ flights.map Flight.datagram
  ledger : n'.ledger = n.ledger.recordAll (flights.map Flight.datagram)

theorem Routed.refl (n : DemoNode) (effects : List Effect) : Routed n n effects [] where
  own := rfl
  replica := rfl
  trail := rfl
  senders := fun _ hmem => by cases hmem
  meets := fun _ _ _ hmem => by cases hmem
  released := (List.append_nil _).symm
  ledger := rfl

theorem route_routed (n : DemoNode) (effects : List Effect) :
    Routed n (n.route effects).1 effects (n.route effects).2.1 := by
  induction effects generalizing n with
  | nil => exact .refl n []
  | cons effect effects ih =>
    cases effect with
    | send recipient era message =>
      have hrest := ih (n.release recipient message)
      unfold route
      generalize (n.release recipient message).route effects = out at hrest
      obtain ⟨n', flights, result⟩ := out
      refine ⟨hrest.own, hrest.replica, hrest.trail, fun flight hmem => ?_,
        fun P hsending flight hmem => ?_, ?_, ?_⟩
      · rcases List.mem_cons.mp hmem with rfl | hmem
        · rfl
        · exact hrest.senders flight hmem
      · rcases List.mem_cons.mp hmem with rfl | hmem
        · exact hsending _ (List.mem_cons_self ..)
        · exact hrest.meets P (fun effect hin => hsending effect (List.mem_cons_of_mem _ hin))
            flight hmem
      · show n'.released = _
        rw [hrest.released]
        simp [release, Flight.datagram]
      · show n'.ledger = _
        rw [hrest.ledger]
        rfl
    | apply slot operationId payload =>
      have hrest := ih { n with pending := n.pending ++ [⟨slot, operationId, payload⟩] }
      unfold route
      exact ⟨hrest.own, hrest.replica, hrest.trail, hrest.senders,
        fun P hsending => hrest.meets P fun effect hin =>
          hsending effect (List.mem_cons_of_mem _ hin), hrest.released, hrest.ledger⟩
    | persist intent => exact .refl n _
    | adminResponse verdict => exact .refl n _

/-! ### One step -/

/-- A replica that publishes nothing and faults. -/
theorem Sound.faults (hs : n.Sound) {r : Replica SegmentedLog} (hvolatile : r.stability = .volatile)
    (hunparked : r.parked = none) (hsame : r.progress = n.replica.progress) (fault : Fault) :
    Goes n { n with replica := r.faultNode fault } [] := by
  have hkept : (r.faultNode fault).progress.current = n.replica.progress.current ∧
      (r.faultNode fault).progress.committed = n.replica.progress.committed ∧
      (r.faultNode fault).stability = .volatile ∧ (r.faultNode fault).parked = none := by
    rw [← hsame]
    rcases faultNode_cases r fault with heq | ⟨progress, heq, hdata⟩
    · rw [heq]
      exact ⟨rfl, rfl, hvolatile, hunparked⟩
    · rw [heq]
      have hcurrent : progress.current = r.progress.current := by rw [hdata]
      have hcommitted : progress.committed = r.progress.committed := by rw [hdata]
      exact ⟨hcurrent, hcommitted, hvolatile, hunparked⟩
  obtain ⟨hcurrent, hcommitted, hstability, hparked⟩ := hkept
  exact {
    own := rfl
    sound := ⟨hstability, hparked, hs.planned, fun t hmem => hcommitted ▸ hs.committed t hmem⟩
    current := hcurrent.ge
    committed := hcommitted.ge
    trail := List.Subset.refl _
    senders := fun _ hmem => by cases hmem
    vouches := fun _ hmem => by cases hmem
    released := (List.append_nil _).symm
    ledger := rfl }

/-- **One publication**, and what it released. -/
theorem Sound.publishes (hs : n.Sound) {input : TimedInput} {plan : PlannedTransition}
    {journal : SegmentedLog} (hplan : n.replica.plan input = .ok plan) (hfault : plan.fault = none)
    (hlegal : legal n.replica.progress.toProgressData plan.candidate.toProgressData plan.kind =
      none) (hrouted : Routed (n.published input plan
        (({ n.replica with parked := none } : Replica SegmentedLog).installed plan journal)) n'
          plan.effects flights) : Goes n n' flights := by
  generalize hinstalled :
    ({ n.replica with parked := none } : Replica SegmentedLog).installed plan journal = replica
    at hrouted
  have hprogress : n'.replica.progress = plan.candidate := by
    rw [hrouted.replica]
    unfold published
    simp only
    subst hinstalled
    split
    · rw [Cluster.reclaimJournal_progress]
      rfl
    · rfl
  have hkept : n'.replica.stability = n.replica.stability ∧ n'.replica.parked = none := by
    rw [hrouted.replica]
    unfold published
    simp only
    subst hinstalled
    split
    · unfold Replica.reclaimJournal
      split
      · exact ⟨rfl, rfl⟩
      · exact ⟨rfl, rfl⟩
    · exact ⟨rfl, rfl⟩
  have htrail : n'.trail = n.trail ++ [⟨n.replica, input, plan⟩] := hrouted.trail
  have hcommitted := committed_le_of_legal hlegal
  have hattests := plan_attests (fresh_of_unparked hs.unparked hplan) hplan
  refine ⟨hrouted.own, ⟨hkept.1.trans hs.volatile, hkept.2, fun t hmem => ?_, fun t hmem => ?_⟩,
    ?_, ?_, fun t hmem => ?_, hrouted.senders, fun flight hmem => ?_, hrouted.released,
    hrouted.ledger⟩
  · rw [htrail, List.mem_append, List.mem_singleton] at hmem
    rcases hmem with hmem | rfl
    · exact hs.planned t hmem
    · exact ⟨hplan, hfault⟩
  · rw [htrail, List.mem_append, List.mem_singleton] at hmem
    rw [hprogress]
    rcases hmem with hmem | rfl
    · exact (hs.committed t hmem).trans hcommitted
    · exact Nat.le_refl _
  · rw [hprogress]
    exact current_le_of_legal hlegal
  · rw [hprogress]
    exact hcommitted
  · rw [htrail]
    exact List.mem_append_left _ hmem
  · have hsaid := hrouted.meets _ hattests flight hmem
    unfold Attests at hsaid
    unfold Vouches
    cases htag : flight.message.tag with
    | prepareOk =>
      rw [htag] at hsaid
      refine ⟨⟨n.replica, input, plan⟩, ?_, hsaid.1.symm, hsaid.2⟩
      rw [htrail]
      exact List.mem_append_right _ (List.mem_singleton.mpr rfl)
    | startViewChange | startView =>
      rw [htag] at hsaid
      rw [hprogress]
      exact hsaid
    | _ => trivial

theorem Sound.drive (hs : n.Sound) (input : Input) :
    Goes n (n.drive input).1 (n.drive input).2.1 := by
  unfold DemoNode.drive
  simp only
  cases hplan : n.replica.plan { time := n.tick, event := input } with
  | error refusal => exact .refl hs
  | ok plan =>
    have hpublish := publish_cases n.replica plan
    simp only
    generalize n.replica.publish plan = outcome at hpublish
    cases hpublish with
    | refused refusal => exact .refl hs
    | faulted fault => exact hs.faults hs.volatile hs.unparked rfl fault
    | diverged error =>
      exact hs.faults (r := { n.replica with parked := none }) hs.volatile rfl rfl _
    | parked _ hstability => exact absurd hs.volatile hstability
    | published journal hbase hfault hlegal hnow hjournal =>
      have hrouted := route_routed (n.published { time := n.tick, event := input } plan
        (({ n.replica with parked := none } : Replica SegmentedLog).installed plan journal))
        plan.effects
      simp only
      generalize DemoNode.route _ plan.effects = out at hrouted ⊢
      obtain ⟨n', flights, result⟩ := out
      have hgoes := hs.publishes hplan hfault hlegal hrouted
      cases result with
      | error refusal => exact hgoes
      | ok _ => exact hgoes

theorem Sound.walkApply (hs : n.Sound) (json : RequestJson) (apply : PendingApply) :
    Goes n (n.walkApply json apply).1 (n.walkApply json apply).2.1 := by
  unfold DemoNode.walkApply
  split
  · exact ⟨rfl, ⟨hs.volatile, hs.unparked, hs.planned, hs.committed⟩, le_refl _, Nat.le_refl _,
      List.Subset.refl _, fun _ hmem => (by cases hmem), fun _ hmem => (by cases hmem),
      (List.append_nil _).symm, rfl⟩
  · rename_i locks response _
    have hs' : Sound { n with
        locks := locks
        applied := n.applied ++ [⟨apply.slot, apply.operationId, response⟩] } :=
      ⟨hs.volatile, hs.unparked, hs.planned, hs.committed⟩
    exact (hs'.drive (.applied apply.slot)).start rfl rfl rfl rfl rfl

theorem Sound.walk (hs : n.Sound) (json : RequestJson) (rounds : Nat) :
    Goes n (DemoNode.walk json rounds n).1 (DemoNode.walk json rounds n).2.1 := by
  induction rounds generalizing n with
  | zero => exact .refl hs
  | succ rounds ih =>
    unfold DemoNode.walk
    split
    · exact .refl hs
    · rename_i apply pending _
      have hs' : Sound { n with pending := pending } :=
        ⟨hs.volatile, hs.unparked, hs.planned, hs.committed⟩
      have happly := (hs'.walkApply json apply).start (n := n) rfl rfl rfl rfl rfl
      split
      · rename_i n' flights refusal heq
        rw [heq] at happly
        exact happly
      · rename_i n' flights revision heq
        rw [heq] at happly
        exact happly.trans (ih happly.sound)

/-- **One step of a node.** -/
theorem Sound.step (hs : n.Sound) (json : RequestJson) (input : Input) :
    Goes n (n.step json input).1 (n.step json input).2.1 := by
  have hdrive := hs.drive input
  unfold DemoNode.step
  split
  · rename_i n' flights refusal heq
    rw [heq] at hdrive
    exact hdrive
  · rename_i n' flights revision heq
    rw [heq] at hdrive
    have hwalk := hdrive.sound.walk json n'.pending.length
    split
    · rename_i n'' more refusal hwalked
      rw [hwalked] at hwalk
      exact hdrive.trans hwalk
    · rename_i n'' more hwalked
      rw [hwalked] at hwalk
      exact hdrive.trans hwalk

/-- The completion of an apply parks no further one. -/
theorem drive_applied (n : DemoNode) (slot : Nat) :
    (n.drive (.applied slot)).1.pending = n.pending := by
  unfold DemoNode.drive
  simp only
  cases hplan : n.replica.plan { time := n.tick, event := .applied slot } with
  | error refusal => rfl
  | ok plan =>
    have hpublish := publish_cases n.replica plan
    simp only
    generalize n.replica.publish plan = outcome at hpublish
    cases hpublish with
    | published =>
      obtain ⟨applied, candidate, -, -, -, rfl⟩ := planApplied_ok (plan_applied_eq rfl hplan)
      rfl
    | refused => rfl
    | faulted => rfl
    | diverged => rfl
    | parked => rfl

/-- **The walk has rounds enough**: unless it is refused, nothing is pending behind it. -/
theorem walk_settles {json : RequestJson} {rounds : Nat} (hle : n.pending.length ≤ rounds)
    (hok : (DemoNode.walk json rounds n).2.2 = .ok ()) :
    (DemoNode.walk json rounds n).1.pending = [] := by
  induction rounds generalizing n with
  | zero => exact List.length_eq_zero_iff.mp (Nat.le_zero.mp hle)
  | succ rounds ih =>
    unfold DemoNode.walk at hok ⊢
    cases hpending : n.pending with
    | nil => exact hpending
    | cons apply pending =>
      rw [hpending] at hok hle
      simp only at hok ⊢
      have hrest : (({ n with pending := pending } : DemoNode).walkApply json apply).1.pending =
          pending := by
        unfold DemoNode.walkApply
        split
        · rfl
        · exact drive_applied _ _
      generalize DemoNode.walkApply json _ apply = out at hok hrest
      obtain ⟨n', flights, result⟩ := out
      cases result with
      | error refusal => cases hok
      | ok revision =>
        refine ih (n := n') ?_ hok
        rw [hrest]
        exact Nat.le_of_succ_le_succ hle

end DemoNode

end Demo

end UvrrCore
