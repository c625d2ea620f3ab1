import UvrrCore.Cluster
import UvrrCore.Logs
import UvrrCore.OneEra.Setting

/-!
# What a replica of the first era stands for

`Tracks` relates a replica to its node in a viewstamped state: the ballots and frontiers are the
node's, the journal is what is left of the node's log, the evidence it collected are reports on
record, the acknowledgements it counted were given. `MessageOk` says what a message in flight
claims, `Effective` what an effect may.

A planned transition *lands* in a state when the record, the mutation, the bookkeeping and the
effects it carries are those of the node there (`Landed`); `Landed.tracks` installs it.
-/

namespace UvrrCore

open Viewstamped

/-- The ordinary evidence a message carries. -/
def Message.evidence (message : Message) : Option Evidence :=
  match message.body with
  | .doViewChange retained accepted committed suffix .ordinary _ =>
    some { retained := retained, accepted := accepted, committed := committed, suffix := suffix }
  | _ => none

/-- A message of the first era. A fetch and its answer echo whatever view was asked under. -/
def Message.InEra (message : Message) : Prop :=
  match message.body with
  | .getState _ | .newState .. => True
  | _ => message.header.view.era = 1

/-- The states the first era is related to. -/
abbrev Ledger : Type := Viewstamped.State Nat Ballot LogEntry

namespace Genesis

variable (g : Genesis) (a : Ledger)

/-! ### Claims -/

/-- The first slots are known to be committed, under ballots up to this one. -/
def Known (ballot : Ballot) (frontier : Nat) : Prop :=
  ∀ s < frontier, ∃ b ≤ ballot, a.Chosen g.setting b s

/-- The evidence is a report on record. -/
structure Reported (ρ : Report Nat Ballot LogEntry) (evidence : Evidence) : Prop where
  retained : evidence.retained = ρ.snapshot.retained
  accepted : evidence.accepted = ρ.snapshot.log.length
  committed : evidence.committed = ρ.snapshot.committed
  offers : Offers evidence.suffix ρ.snapshot.log
  shaped : Shaped evidence.suffix evidence.accepted

/-- **What a message in flight claims.** -/
def MessageOk (e : Envelope) : Prop :=
  e.message.InEra ∧
  match e.message.body with
  | .prepare entry committed =>
    logAt (a.hist e.message.header.view) entry.slot = some entry ∧
      g.Known a e.message.header.view committed
  | .prepareOk => e.message.header.slot ≤ a.acked e.sender e.message.header.view
  | .commit frontier => g.Known a e.message.header.view frontier
  | .doViewChange retained accepted committed suffix evidence _ =>
    evidence = .ordinary ∧ g.setting.primary e.message.header.view ≠ e.sender ∧
      ∃ ρ ∈ a.reports, ρ.target = e.message.header.view ∧ ρ.node = e.sender ∧
      Reported ρ
        { retained := retained, accepted := accepted, committed := committed
          suffix := suffix } ∧
      Reads e.origin.journal ρ.snapshot.log
  | .startView suffix accepted committed _ =>
    e.message.header.view ∈ a.started ∧ (a.opening e.message.header.view).length = accepted ∧
      Offers suffix (a.opening e.message.header.view) ∧ Shaped suffix accepted ∧
      g.Known a e.message.header.view committed ∧
      Reads e.origin.journal (a.opening e.message.header.view)
  | .newState entries through committed _ =>
    ∃ σ ∈ a.seen, σ.retained = e.origin.progress.retained ∧
      (e.origin.progress.status = .normal → σ.serving) ∧ Offers entries σ.log ∧
      Shaped entries through ∧ committed ≤ σ.committed
  | .startViewChange | .getState _ | .commitBatch _ => True
  | .plannedViewChange | .reincarnation .. | .fuse _ | .fuseOk _ | .gossipRequest .. => False

/-- What a message may claim that its sender sends now. -/
def Sendable (node : Nat) (message : Message) : Prop :=
  message.InEra ∧
  match message.body with
  | .prepare entry committed =>
    logAt (a.hist message.header.view) entry.slot = some entry ∧
      g.Known a message.header.view committed
  | .prepareOk => message.header.slot ≤ a.acked node message.header.view
  | .commit frontier => g.Known a message.header.view frontier
  | .doViewChange retained accepted committed suffix evidence _ =>
    evidence = .ordinary ∧ g.setting.primary message.header.view ≠ node ∧
      ∃ ρ ∈ a.reports, ρ.target = message.header.view ∧ ρ.node = node ∧ Reported ρ
        { retained := retained, accepted := accepted, committed := committed
          suffix := suffix } ∧
      ρ.snapshot.log = (a.nodes node).log
  | .startView suffix accepted committed _ =>
    message.header.view ∈ a.started ∧ (a.opening message.header.view).length = accepted ∧
      Offers suffix (a.opening message.header.view) ∧ Shaped suffix accepted ∧
      g.Known a message.header.view committed ∧
      a.opening message.header.view = (a.nodes node).log
  | .newState entries through committed _ =>
    Offers entries (a.nodes node).log ∧ Shaped entries through ∧
      committed ≤ (a.nodes node).committed
  | .startViewChange | .getState _ | .commitBatch _ => True
  | .plannedViewChange | .reincarnation .. | .fuse _ | .fuseOk _ | .gossipRequest .. => False

/-- The operation stands at the slot of a history, where it is chosen. -/
def Applies (slot : Nat) (id : OperationId) (payload : List UInt8) : Prop :=
  ∃ b s entry, slot = s + 1 ∧ a.Chosen g.setting b s ∧ (a.hist b)[s]? = some entry ∧
    entry.payload = .operation id payload

/-- **What an effect may claim.** -/
def Effective (node : Nat) : Effect → Prop
  | .send _ _ message => g.Sendable a node message
  | .apply slot id payload => g.Applies a slot id payload
  | .persist _ | .adminResponse _ => True

/-! ### Replicas -/

/-- The record is the node's. -/
structure Recorded (ν : Node Ballot LogEntry) (p : ProgressData) : Prop where
  config : p.config = g.table
  era : p.current.era = 1
  current : p.current = ν.current
  retained : p.retained = ν.retained
  accepted : p.accepted = ν.log.length
  committed : p.committed = ν.committed
  genesis : 2 ≤ p.committed
  status : (p.status = .normal ∧ ν.retained = ν.current) ∨
    (p.status = .viewChange ∧ ν.retained < ν.current) ∨
    (p.status = .joining ∧ ν.retained = ν.current ∧ p.accepted = p.committed)

/-- An envelope carries a node's evidence for a target. -/
def Carries (e : Envelope) (reporter : Nat) (target : Ballot) (evidence : Evidence) : Prop :=
  e.sender = reporter ∧ e.message.header.view = target ∧ e.message.evidence = some evidence

instance (e : Envelope) (reporter : Nat) (target : Ballot) (evidence : Evidence) :
    Decidable (Carries e reporter target evidence) :=
  inferInstanceAs (Decidable (_ ∧ _ ∧ _))

/-- **An open attempt.** Its evidence is the node's own or came in messages; a selection is the
best of a quorum of reports. -/
structure Pursued (sent : List Envelope) (node : Nat) (retained : Ballot)
    (attempt : ViewChangeVolatile) : Prop where
  evidence : ∀ n evidence, attempt.evidence.get? n = some evidence →
    (n = node ∧ evidence.retained = retained ∧ ∃ ρ ∈ a.reports, ρ.target = attempt.target ∧
      ρ.node = node ∧ Reported ρ evidence) ∨
    ∃ e ∈ sent, Carries e n attempt.target evidence
  selected : ∀ n evidence, attempt.selected = some (n, evidence) →
    attempt.evidence.get? n = some evidence ∧ retained ≤ evidence.retained ∧
    ∃ Q, g.setting.Quorum Q ∧ ∀ m ∈ Q, ∃ ρ ∈ a.reports, ρ.target = attempt.target ∧
      ρ.node = m ∧ (ρ.snapshot.retained < evidence.retained ∨
        (ρ.snapshot.retained = evidence.retained ∧
          ρ.snapshot.log.length ≤ evidence.accepted))

/-- The acknowledgements a replica counted were given. -/
def Counted (retained : Ballot) (proposals : OrdMap Nat Proposal) : Prop :=
  ∀ slot proposal, proposals.get? slot = some proposal →
    ∀ n ∈ proposal.oks, slot ≤ a.acked n retained

/-- A retained offer was sent. -/
def Offered (sent : List Envelope) (stalled : Option StalledStartView) : Prop :=
  ∀ offer, stalled = some offer →
    ∃ e ∈ sent, e.sender = offer.sender ∧ e.message = offer.message

/-- **The replica is the node.** -/
structure Tracks (sent : List Envelope) (node : Nat) (r : Replica SegmentedLog) : Prop where
  own : r.own = node
  member : node ∈ g.order
  strategy : r.strategy = weightedMajority
  stability : r.stability = .volatile
  parked : r.parked = none
  planned : r.planned = none
  reincarnation : r.reincarnation = none
  planExecution : r.planExecution = none
  record : g.Recorded (a.nodes node) r.progress.toProgressData
  reads : Reads r.journal (a.nodes node).log
  frontier : Journal.accepted r.journal = some (a.nodes node).log.length
  window : (Journal.retained r.journal).1 ≤ r.progress.committed + 1
  attempt : ∀ attempt, r.viewChange = some attempt →
    attempt.target = r.progress.current ∧ r.progress.status = .viewChange ∧
      g.Pursued a sent node r.progress.retained attempt
  counted : Counted a r.progress.retained r.proposals
  offered : Offered sent r.stalled

/-- **A transition lands in a state.** -/
structure Landed (sent : List Envelope) (node : Nat) (r : Replica SegmentedLog)
    (log : List LogEntry) (plan : PlannedTransition) : Prop where
  record : g.Recorded (a.nodes node) plan.candidate.toProgressData
  log : Mutates log plan.journal (a.nodes node).log
  attempt : ∀ attempt, plan.bookkeeping.viewChange.applyTo r.viewChange = some attempt →
    attempt.target = plan.candidate.current ∧ plan.candidate.status = .viewChange ∧
      g.Pursued a sent node plan.candidate.retained attempt
  counted : Counted a plan.candidate.retained
    (Replica.nextProposals r.proposals plan.bookkeeping)
  offered : Offered sent (plan.bookkeeping.stalled.applyTo r.stalled)
  planned : plan.bookkeeping.planned.applyTo r.planned = none
  reincarnation : plan.bookkeeping.reincarnation.applyTo r.reincarnation = none
  planExecution : plan.bookkeeping.planExecution.applyTo r.planExecution = none
  effects : ∀ effect ∈ plan.effects, g.Effective a node effect

/-! ### Growth -/

section Growth

variable {g : Genesis} {a a' : Ledger}

theorem Known.mono (hgrows : Grows a a') {ballot : Ballot} {frontier : Nat}
    (h : g.Known a ballot frontier) : g.Known a' ballot frontier := by
  intro s hs
  obtain ⟨b, hle, hchosen⟩ := h s hs
  exact ⟨b, hle, chosen_mono hgrows hchosen⟩

theorem Known.le {ballot ballot' : Ballot} {frontier frontier' : Nat}
    (h : g.Known a ballot frontier) (hballot : ballot ≤ ballot') (hle : frontier' ≤ frontier) :
    g.Known a ballot' frontier' := by
  intro s hs
  obtain ⟨b, hb, hchosen⟩ := h s (hs.trans_le hle)
  exact ⟨b, hb.trans hballot, hchosen⟩

theorem Known.max {ballot : Ballot} {frontier frontier' : Nat} (h : g.Known a ballot frontier)
    (h' : g.Known a ballot frontier') : g.Known a ballot (max frontier frontier') := by
  intro s hs
  rcases Nat.lt_or_ge s frontier with hlt | hge
  · exact h s hlt
  · exact h' s (by omega)

theorem logAt_mono {xs ys : List LogEntry} (h : xs <+: ys) {slot : Nat} {entry : LogEntry}
    (hx : logAt xs slot = some entry) : logAt ys slot = some entry := by
  cases slot with
  | zero => cases hx
  | succ i => exact getElem?_of_segment h hx

theorem Applies.mono (hgrows : Grows a a') {slot : Nat} {id : OperationId}
    {payload : List UInt8} (h : g.Applies a slot id payload) : g.Applies a' slot id payload := by
  obtain ⟨b, s, entry, hslot, hchosen, hentry, hpayload⟩ := h
  exact ⟨b, s, entry, hslot, chosen_mono hgrows hchosen,
    getElem?_of_segment (hgrows.hist b) hentry, hpayload⟩

/-- What a message claims stays true. -/
theorem MessageOk.mono (hgrows : Grows a a') {e : Envelope} (h : g.MessageOk a e) :
    g.MessageOk a' e := by
  refine ⟨h.1, ?_⟩
  have hbody := h.2
  revert hbody
  cases e.message.body <;> simp only [imp_self]
  · rintro ⟨hentry, hknown⟩
    exact ⟨logAt_mono (hgrows.hist _) hentry, hknown.mono hgrows⟩
  · exact fun hacked => hacked.trans (hgrows.acked _ _)
  · exact fun hknown => Known.mono hgrows hknown
  · rintro ⟨hkind, hsender, ρ, hρ, hrest⟩
    exact ⟨hkind, hsender, ρ, hgrows.reports hρ, hrest⟩
  · rintro ⟨hstarted, hrest⟩
    rw [hgrows.opening _ hstarted]
    obtain ⟨hlen, hoffers, hshaped, hknown, hreads⟩ := hrest
    exact ⟨hgrows.started hstarted, hlen, hoffers, hshaped, Known.mono hgrows hknown, hreads⟩
  · rintro ⟨σ, hσ, hrest⟩
    exact ⟨σ, hgrows.seen hσ, hrest⟩

theorem Pursued.mono (hgrows : Grows a a') {sent sent' : List Envelope}
    (hsent : ∀ e ∈ sent, e ∈ sent') {node : Nat} {retained : Ballot}
    {attempt : ViewChangeVolatile} (h : g.Pursued a sent node retained attempt) :
    g.Pursued a' sent' node retained attempt where
  evidence n evidence hget := by
    rcases h.evidence n evidence hget with ⟨hn, hretained, ρ, hρ, hrest⟩ | ⟨e, he, hcarries⟩
    · exact Or.inl ⟨hn, hretained, ρ, hgrows.reports hρ, hrest⟩
    · exact Or.inr ⟨e, hsent e he, hcarries⟩
  selected n evidence hsel := by
    obtain ⟨hget, hle, Q, hQ, hall⟩ := h.selected n evidence hsel
    refine ⟨hget, hle, Q, hQ, fun m hm => ?_⟩
    obtain ⟨ρ, hρ, hrest⟩ := hall m hm
    exact ⟨ρ, hgrows.reports hρ, hrest⟩

theorem Counted.mono (hgrows : Grows a a') {retained : Ballot} {proposals : OrdMap Nat Proposal}
    (h : Counted a retained proposals) : Counted a' retained proposals :=
  fun slot proposal hget n hn => (h slot proposal hget n hn).trans (hgrows.acked n retained)

theorem Offered.mono {sent sent' : List Envelope} (hsent : ∀ e ∈ sent, e ∈ sent')
    {stalled : Option StalledStartView} (h : Offered sent stalled) : Offered sent' stalled := by
  intro offer hoffer
  obtain ⟨e, he, hrest⟩ := h offer hoffer
  exact ⟨e, hsent e he, hrest⟩

/-- A replica that takes no part in a step stays its node. -/
theorem Tracks.mono (hgrows : Grows a a') {sent sent' : List Envelope}
    (hsent : ∀ e ∈ sent, e ∈ sent') {node : Nat} {r : Replica SegmentedLog}
    (hnode : a'.nodes node = a.nodes node) (h : g.Tracks a sent node r) :
    g.Tracks a' sent' node r where
  own := h.own
  member := h.member
  strategy := h.strategy
  stability := h.stability
  parked := h.parked
  planned := h.planned
  reincarnation := h.reincarnation
  planExecution := h.planExecution
  record := hnode ▸ h.record
  reads := hnode ▸ h.reads
  frontier := hnode ▸ h.frontier
  window := h.window
  attempt attempt hattempt := by
    obtain ⟨htarget, hstatus, hpursued⟩ := h.attempt attempt hattempt
    exact ⟨htarget, hstatus, hpursued.mono hgrows hsent⟩
  counted := h.counted.mono hgrows
  offered := h.offered.mono hsent

end Growth

/-! ### Installing a landed transition -/

section Installing

variable {g : Genesis} {a : Ledger} {sent : List Envelope} {node : Nat}
  {r : Replica SegmentedLog}

/-- What a replica sends is true of the envelope it goes in. -/
theorem Sendable.messageOk (hpresent : (a.nodes node).snapshot ∈ a.seen)
    (htracks : g.Tracks a sent node r) {recipient : Nat} {message : Message}
    (h : g.Sendable a node message) :
    g.MessageOk a
      { sender := node, recipient := recipient, message := message, origin := r } := by
  refine ⟨h.1, ?_⟩
  have hbody := h.2
  revert hbody
  simp only
  cases message.body <;> simp only [imp_self]
  · rintro ⟨hkind, hprimary, ρ, hρ, htarget, hnode, hreported, hlog⟩
    exact ⟨hkind, hprimary, ρ, hρ, htarget, hnode, hreported, hlog ▸ htracks.reads⟩
  · rintro ⟨hstarted, hlen, hoffers, hshaped, hknown, hlog⟩
    exact ⟨hstarted, hlen, hoffers, hshaped, hknown, hlog ▸ htracks.reads⟩
  · rintro ⟨hoffers, hshaped, hcommitted⟩
    refine ⟨(a.nodes node).snapshot, hpresent, htracks.record.retained.symm, fun hnormal => ?_,
      hoffers, hshaped, hcommitted⟩
    rcases htracks.record.status with ⟨-, hserving⟩ | ⟨hstatus, -⟩ | ⟨hstatus, -⟩
    · exact hserving
    · rw [hstatus] at hnormal
      cases hnormal
    · rw [hstatus] at hnormal
      cases hnormal

/-- **A landed transition, installed, is the node.** -/
theorem Landed.tracks {a₀ : Ledger} {plan : PlannedTransition} {journal : SegmentedLog}
    (htracks : g.Tracks a₀ sent node r) (h : g.Landed a sent node r (a₀.nodes node).log plan)
    (hlegal : legal r.progress.toProgressData plan.candidate.toProgressData plan.kind = none)
    (hjournal : Replica.mutateJournal r.journal plan.journal = .ok journal) :
    g.Tracks a sent node (({ r with parked := none } : Replica SegmentedLog).installed plan
      journal) := by
  obtain ⟨hreads, hfrontier, hfirst⟩ := h.log.reads htracks.reads htracks.frontier hjournal
  exact
    { own := htracks.own
      member := htracks.member
      strategy := htracks.strategy
      stability := htracks.stability
      parked := rfl
      planned := h.planned
      reincarnation := h.reincarnation
      planExecution := h.planExecution
      record := h.record
      reads := hreads
      frontier := hfrontier
      window := by
        show (Journal.retained journal).1 ≤ plan.candidate.committed + 1
        rw [hfirst]
        have := committed_le_of_legal hlegal
        have := htracks.window
        omega
      attempt := h.attempt
      counted := h.counted
      offered := h.offered }

end Installing

end Genesis

end UvrrCore
