import UvrrCore.Folding
import UvrrCore.Logs
import UvrrCore.Selection

/-!
# What a plan is made of

Whatever the input, a fresh plan is of one of two kinds. Either it leaves the committed frontier
and the era table alone and applies nothing; or it folds the range up to a new committed frontier
through an overlay of entries that are about to be journaled, takes frontier and table from the
fold, and applies the client operations of the range. `Replica.Drafted` says so, and how the
journal mutation goes with the overlay and the accepted frontier (`Replica.Rewrite`).

The suffixes come from messages and from reports kept in the open view change. What is known of
them, and of a chunk at the boot fence, is the parameter `given` of a draft.
-/

namespace UvrrCore

/-- What a draft is planned under: what is known of the suffixes at hand, of a history shorter than
the local one that a view is installed with and of a kept offer, that no chunk cuts the journal
below the accepted frontier, the most entries that may be appended, and that the host reports a
slot applied. -/
structure Given where
  shape : List LogEntry → Nat → Prop
  shorter : List LogEntry → Nat → Prop
  kept : Message → Prop
  uncut : Prop
  width : Nat
  acknowledges : Prop

/-- The most entries the handler of a message appends. -/
def Message.appends (message : Message) : Nat :=
  match message.body with
  | .prepare _ _ | .reincarnation _ _ _ _ => 1
  | .fuse ops => ops.length
  | _ => 0

/-- The most entries the handler of an input appends. -/
def Input.appends : Input → Nat
  | .peer _ message => message.appends
  | .propose _ | .reconfigure _ _ | .reincarnate _ => 1
  | .tick | .submitPlan _ => fuseMaxOps
  | .stabilityConfirmation _ _ | .applied _ | .checkpointed _ | .adminForceView _ => 0

def Effect.isApply : Effect → Bool
  | .apply _ _ _ => true
  | .send _ _ _ | .persist _ | .adminResponse _ => false

/-- The table itself, or the table with a pivot put on its current record. -/
def EraTable.UpToPivot (table marked : EraTable) : Prop :=
  marked = table ∨ ∃ pivot, table.withTransitionPivot table.current.era pivot = some marked

/-- Every entry a message carries has a slot after it: the logs of its sender take no other. -/
def Message.Storable (message : Message) : Prop :=
  match message.body with
  | .doViewChange _ _ _ suffix _ _ => ∀ entry ∈ suffix, entry.slot + 1 < u64Bound
  | .startView suffix _ _ _ => ∀ entry ∈ suffix, entry.slot + 1 < u64Bound
  | .newState entries _ _ _ => ∀ entry ∈ entries, entry.slot + 1 < u64Bound
  | _ => True

/-- The suffix of a message has the given shape, once it passes the shape check. -/
def Given.Admits (given : Given) (message : Message) : Prop :=
  match message.body with
  | .doViewChange _ accepted _ suffix _ _ =>
    suffixShapeOk suffix accepted = true → given.shape suffix accepted
  | .startView suffix accepted _ _ =>
    suffixShapeOk suffix accepted = true → given.shape suffix accepted
  | .newState entries through _ _ =>
    suffixShapeOk entries through = true → given.shape entries through
  | _ => True

/-- Every report of the attempt, and the selected one, has a suffix of a shape. -/
structure ViewChangeVolatile.Reported (shape : List LogEntry → Nat → Prop)
    (attempt : ViewChangeVolatile) : Prop where
  evidence : ∀ node report, attempt.evidence.get? node = some report →
    shape report.suffix report.accepted
  selected : ∀ node report, attempt.selected = some (node, report) →
    shape report.suffix report.accepted

/-- Every report of the attempt, and the selected one, is a run of entries up to its frontier. -/
abbrev ViewChangeVolatile.WellReported (attempt : ViewChangeVolatile) : Prop :=
  attempt.Reported Shaped

theorem ViewChangeVolatile.Reported.mono {shape shape' : List LogEntry → Nat → Prop}
    (himp : ∀ entries accepted, shape entries accepted → shape' entries accepted)
    {attempt : ViewChangeVolatile} (h : attempt.Reported shape) : attempt.Reported shape' :=
  ⟨fun node report hget => himp _ _ (h.evidence node report hget),
    fun node report hselected => himp _ _ (h.selected node report hselected)⟩

namespace Replica

variable {J : Type} [Journal J]

/-- The reports at hand and the replica's own have suffixes of a shape. -/
structure Reported (r : Replica J) (shape : List LogEntry → Nat → Prop) : Prop where
  own : shape r.ownEvidence.suffix r.ownEvidence.accepted
  attempt : ∀ attempt, r.viewChange = some attempt → attempt.Reported shape

abbrev WellReported (r : Replica J) : Prop := r.Reported Shaped

/-- **How a mutation goes with the overlay it installs and the accepted frontier behind it.** -/
inductive Rewrite (r : Replica J) (given : Given) (overlay : List LogEntry) (covered : Nat) :
    JournalMutation → Nat → Prop
  | kept (hoverlay : overlay = []) : Rewrite r given overlay covered .none r.progress.accepted
  | appended {entries : List LogEntry} {last : LogEntry}
      (hoverlay : overlay = [] ∨ overlay = entries)
      (hrun : ContiguousFrom (r.progress.accepted + 1) entries)
      (hlast : entries.getLast? = some last) (hwidth : entries.length ≤ given.width) :
      Rewrite r given overlay covered (.accept entries) last.slot
  | spliced {mutation : JournalMutation} {accepted committed discharged : Nat}
      (hshape : given.shape overlay accepted)
      (hcheck : r.checkSuffix overlay accepted committed discharged = .install mutation)
      (hdischarged : discharged ≤ r.progress.checkpoint)
      (hshorter : accepted < r.progress.accepted → given.shorter overlay accepted) :
      Rewrite r given overlay covered mutation accepted
  /-- A chunk at the boot fence whose fold stopped short: only what it covered is journaled. -/
  | truncated {mutation : JournalMutation} {through committed : Nat}
      (hboot : r.bootFenced = true)
      (hcut : given.uncut → r.progress.accepted ≤ covered ∨ mutation = .none)
      (hshape : given.shape overlay through)
      (hwhole : ∃ whole, r.checkSuffix overlay through committed Slot.none = .install whole)
      (hshort : covered < through)
      (hcheck : r.truncatedMutation overlay covered committed = .install mutation) :
      Rewrite r given overlay covered mutation (max r.progress.accepted covered)

/-- **What a plan does to the committed frontier**, from the candidate record, the mutation and
the applied operations. The applied frontier is left alone, moved on a report of the host, or
walked over what the fold read. -/
inductive Advance (r : Replica J) (given : Given) (next : ProgressData)
    (mutation : JournalMutation) (applies : List Effect) : Prop
  | still (hcommitted : next.committed = r.progress.committed)
      (happlied : next.applied = r.progress.applied ∨ given.acknowledges)
      (hconfig : next.config = r.progress.config) (happlies : applies = [])
      (hrewrite : r.Rewrite given [] r.progress.committed mutation next.accepted)
  | commit {overlay seen : List LogEntry} {through : Nat} {paced : Bool} {folded : FoldedCommit}
      (hfold : r.foldCommitted overlay r.progress.committed through paced = .ok folded)
      (hcommitted : next.committed = folded.covered)
      (happlied : r.appliedWalk overlay r.progress.applied folded.covered = .ok next.applied)
      (hconfig : folded.config.UpToPivot next.config)
      (hseen : seen = overlay ∨ (seen = [] ∧ ∃ entries, mutation = .accept entries))
      (happlies : applyRange (merged r.journal seen) (folded.covered - r.progress.committed)
        r.progress.committed = .ok applies)
      (hrewrite : r.Rewrite given overlay folded.covered mutation next.accepted)

/-- **A plan of a fresh input**, under what is given of the suffixes it may install. -/
structure Drafted (r : Replica J) (given : Given) (plan : PlannedTransition) : Prop where
  base : plan.base = r.progress.revision
  intent : plan.intent.revision = r.progress.revision
  fresh : plan.completion = false
  advance : r.Advance given plan.candidate.toProgressData plan.journal
    (plan.effects.filter Effect.isApply)
  /-- No input takes a replica into a replay. -/
  replays : plan.candidate.status = .replaying → r.progress.status = .replaying
  reports : ∀ attempt, plan.bookkeeping.viewChange = .set attempt → attempt.Reported given.shape
  offers : ∀ offer, plan.bookkeeping.stalled = .set offer → given.kept offer.message

/-! ### Plans that move nothing -/

omit [Journal J] in
theorem filter_silent {effects : List Effect} (h : ∀ effect ∈ effects, effect.isApply = false) :
    effects.filter Effect.isApply = [] :=
  List.filter_eq_nil_iff.mpr fun effect hmem => by simp [h effect hmem]

variable {r : Replica J} {given : Given} {kind : InputKind} {time : Nat}

/-- What else of a plan is changed leaves it a draft. -/
theorem Drafted.of_eq {plan plan' : PlannedTransition} (h : r.Drafted given plan)
    (hbase : plan'.base = plan.base) (hintent : plan'.intent = plan.intent)
    (hfresh : plan'.completion = plan.completion) (hcandidate : plan'.candidate = plan.candidate)
    (hjournal : plan'.journal = plan.journal)
    (happlies : plan'.effects.filter Effect.isApply = plan.effects.filter Effect.isApply)
    (hview : plan'.bookkeeping.viewChange = plan.bookkeeping.viewChange)
    (hstalled : plan'.bookkeeping.stalled = plan.bookkeeping.stalled) :
    r.Drafted given plan' := by
  refine ⟨hbase.trans h.base, hintent ▸ h.intent, hfresh.trans h.fresh, ?_, hcandidate ▸ h.replays,
    fun attempt hset => h.reports attempt (hview ▸ hset),
    fun offer hset => h.offers offer (hstalled ▸ hset)⟩
  rw [hcandidate, hjournal, happlies]
  exact h.advance

/-- An attempt put on a draft has to be well reported. -/
theorem Drafted.withBookkeeping {plan : PlannedTransition} (h : r.Drafted given plan)
    {bookkeeping : Bookkeeping}
    (hview : ∀ attempt, bookkeeping.viewChange = .set attempt → attempt.Reported given.shape)
    (hstalled : ∀ offer, bookkeeping.stalled ≠ .set offer) :
    r.Drafted given (plan.withBookkeeping bookkeeping) :=
  ⟨h.base, h.intent, h.fresh, h.advance, h.replays, hview,
    fun offer hset => absurd hset (hstalled offer)⟩

theorem Drafted.withFetch {plan : PlannedTransition} (h : r.Drafted given plan) (view : Ballot)
    (recipient start : Nat) : r.Drafted given (plan.withFetch (fetch view recipient start)) := by
  refine h.of_eq rfl rfl rfl rfl rfl ?_ rfl rfl
  show (plan.effects ++ [_]).filter Effect.isApply = _
  rw [List.filter_append]
  exact List.append_nil _

theorem Drafted.withAfter {plan : PlannedTransition} (h : r.Drafted given plan)
    {after : List Effect} (hsilent : ∀ effect ∈ after, effect.isApply = false) :
    r.Drafted given { plan with effects := plan.effects ++ after } := by
  refine h.of_eq rfl rfl rfl rfl rfl ?_ rfl rfl
  rw [List.filter_append, filter_silent hsilent, List.append_nil]

theorem Drafted.withDiagnostic {plan : PlannedTransition} (h : r.Drafted given plan)
    (diagnostic : Diagnostic) : r.Drafted given (plan.withDiagnostic diagnostic) :=
  h.of_eq rfl rfl rfl rfl rfl rfl rfl rfl

theorem Drafted.withActivity {plan : PlannedTransition} (h : r.Drafted given plan) (tick : Nat) :
    r.Drafted given (plan.withActivity tick) :=
  h.of_eq rfl rfl rfl rfl rfl rfl rfl rfl

theorem Drafted.withReincarnation {plan : PlannedTransition} (h : r.Drafted given plan)
    (update : Update ForcedSequence) : r.Drafted given (plan.withReincarnation update) :=
  h.of_eq rfl rfl rfl rfl rfl rfl rfl rfl

theorem Drafted.withPlanExecution {plan : PlannedTransition} (h : r.Drafted given plan)
    (update : Update PlannedSequence) : r.Drafted given (plan.withPlanExecution update) :=
  h.of_eq rfl rfl rfl rfl rfl rfl rfl rfl

theorem Drafted.withWitness {plan : PlannedTransition} (h : r.Drafted given plan) (node : Nat) :
    r.Drafted given (plan.withWitness node) :=
  h.of_eq rfl rfl rfl rfl rfl rfl rfl rfl

/-- An offer is retained as it came. -/
theorem Drafted.withStalledOffer {plan : PlannedTransition} (h : r.Drafted given plan)
    (sender : Nat) {message : Message} (hkept : given.kept message) :
    r.Drafted given (plan.withStalledOffer sender message) := by
  refine ⟨h.base, h.intent, h.fresh, h.advance, h.replays, h.reports, fun offer hset => ?_⟩
  cases hset
  exact hkept

theorem sendAll_isApply (recipients : List Nat) (era : Nat) (message : Message) :
    ∀ effect ∈ sendAll recipients era message, effect.isApply = false := by
  intro effect hmem
  obtain ⟨recipient, -, rfl⟩ := mem_sendAll hmem
  rfl

/-- What a commit applies is all of it applied. -/
theorem filter_applyRange {read : Nat → Option LogEntry} {left slot : Nat} {effects : List Effect}
    (h : applyRange read left slot = .ok effects) :
    effects.filter Effect.isApply = effects := by
  refine List.filter_eq_self.mpr fun effect hmem => ?_
  obtain ⟨at_, entry, id, payload, rfl, -⟩ := applyRange_mem h hmem
  rfl

/-- A record that leaves the frontiers and the table alone. -/
structure Unmoved (r : Replica J) (candidate : Progress) : Prop where
  committed : candidate.committed = r.progress.committed
  applied : candidate.applied = r.progress.applied
  config : candidate.config = r.progress.config
  accepted : candidate.accepted = r.progress.accepted
  replays : candidate.status = .replaying → r.progress.status = .replaying

omit [Journal J] in
theorem SameRecord.unmoved {candidate : Progress} (h : r.SameRecord candidate) :
    r.Unmoved candidate := by
  constructor <;> rw [h]
  exact id

omit [Journal J] in
theorem withViewChange_unmoved {candidate : Progress} {target : Ballot}
    (h : r.progress.withViewChange target = .ok candidate) : r.Unmoved candidate := by
  constructor <;> rw [(withViewChange_ok h).2]
  intro hstatus
  cases hstatus

/-- A plan on an unmoved record that mutates nothing. -/
theorem Unmoved.drafted {candidate : Progress} (h : r.Unmoved candidate) {effects : List Effect}
    (hsilent : ∀ effect ∈ effects, effect.isApply = false) :
    r.Drafted given (r.candidatePlan candidate .none effects kind false) := by
  refine ⟨rfl, rfl, rfl, .still h.committed (.inl h.applied) h.config (filter_silent hsilent) ?_,
    h.replays, fun attempt hset => (by cases hset), fun offer hset => (by cases hset)⟩
  show r.Rewrite given [] r.progress.committed .none candidate.accepted
  rw [h.accepted]
  exact .kept rfl

/-- A proposal, or the acceptance of one, that commits nothing. -/
theorem drafted_append {candidate : Progress} {entries : List LogEntry} {last : LogEntry}
    {effects : List Effect} (hcommitted : candidate.committed = r.progress.committed)
    (happlied : candidate.applied = r.progress.applied)
    (hconfig : candidate.config = r.progress.config)
    (hrun : ContiguousFrom (r.progress.accepted + 1) entries)
    (hlast : entries.getLast? = some last) (hwidth : entries.length ≤ given.width)
    (haccepted : candidate.accepted = last.slot)
    (hreplays : candidate.status = .replaying → r.progress.status = .replaying)
    (hsilent : ∀ effect ∈ effects, effect.isApply = false) :
    r.Drafted given (r.candidatePlan candidate (.accept entries) effects kind false) := by
  refine ⟨rfl, rfl, rfl, .still hcommitted (.inl happlied) hconfig (filter_silent hsilent) ?_,
    hreplays, fun attempt hset => (by cases hset), fun offer hset => (by cases hset)⟩
  show r.Rewrite given [] r.progress.committed (.accept entries) candidate.accepted
  rw [haccepted]
  exact .appended (.inl rfl) hrun hlast hwidth

theorem emitPlan_drafted {effects : List Effect} {plan : PlannedTransition}
    (h : r.emitPlan effects kind = .ok plan)
    (hsilent : ∀ effect ∈ effects, effect.isApply = false) : r.Drafted given plan := by
  obtain ⟨candidate, hsame, rfl⟩ := emitPlan_ok h
  exact hsame.unmoved.drafted hsilent

theorem dropPlan_drafted {diagnostic : Diagnostic} {plan : PlannedTransition}
    (h : r.dropPlan diagnostic kind = .ok plan) : r.Drafted given plan := by
  obtain ⟨plan', hemit, h⟩ := bind_eq_ok.mp h
  cases pure_eq_ok.mp h
  exact (emitPlan_drafted hemit fun _ hmem => by cases hmem).withDiagnostic _

theorem breachPlan_drafted {plan : PlannedTransition} (h : r.breachPlan kind = .ok plan) :
    r.Drafted given plan := by
  obtain ⟨plan', hemit, h⟩ := bind_eq_ok.mp h
  cases pure_eq_ok.mp h
  exact (emitPlan_drafted hemit fun _ hmem => by cases hmem).of_eq rfl rfl rfl rfl rfl rfl rfl rfl

/-! ### Plans that commit -/

/-- A fold to a new frontier never loses ground, and without a pace it gets to the end. -/
theorem foldCommitted_covered {overlay : List LogEntry} {start through : Nat} {paced : Bool}
    {folded : FoldedCommit} (h : r.foldCommitted overlay start through paced = .ok folded) :
    start ≤ folded.covered ∧ (start ≤ through → folded.covered ≤ through) ∧
      (start ≤ through → paced = false → folded.covered = through) := by
  obtain ⟨end_, hend, rfl⟩ := foldCommitted_ok h
  have hend' : foldSlotsThrough (merged r.journal overlay) (r.runFuel overlay)
      r.progress.current through paced (through - (r.folding start).covered) (r.folding start) =
      .ok end_ := hend
  obtain ⟨hlow, hhigh⟩ := foldSlotsThrough_covers hend'
  refine ⟨hlow, hhigh, fun hle hpaced => ?_⟩
  subst hpaced
  exact Nat.le_antisymm (hhigh hle)
    (foldSlotsThrough_complete (Nat.le_refl _) hend' (foldSlotsThrough_unpaced hend'))

theorem drafted_commit {overlay : List LogEntry} (seen : List LogEntry) {through : Nat} {paced : Bool}
    {folded : FoldedCommit} {candidate : Progress} {mutation : JournalMutation}
    {applies effects : List Effect}
    (hfold : r.foldCommitted overlay r.progress.committed through paced = .ok folded)
    (hcommitted : candidate.committed = folded.covered)
    (happlied : r.appliedWalk overlay r.progress.applied folded.covered = .ok candidate.applied)
    (hconfig : folded.config.UpToPivot candidate.config)
    (hseen : seen = overlay ∨ (seen = [] ∧ ∃ entries, mutation = .accept entries))
    (happlies : applyRange (merged r.journal seen) (folded.covered - r.progress.committed)
      r.progress.committed = .ok applies)
    (heffects : effects.filter Effect.isApply = applies)
    (hreplays : candidate.status = .replaying → r.progress.status = .replaying)
    (hrewrite : r.Rewrite given overlay folded.covered mutation candidate.accepted) :
    r.Drafted given (r.candidatePlan candidate mutation effects kind false) := by
  refine ⟨rfl, rfl, rfl, .commit hfold hcommitted happlied hconfig hseen ?_ hrewrite, hreplays,
    fun attempt hset => (by cases hset), fun offer hset => (by cases hset)⟩
  show applyRange _ _ _ = .ok (effects.filter Effect.isApply)
  rw [heffects]
  exact happlies

/-- Reads that agree over a range apply the same operations. -/
theorem applyRange_congr {read read' : Nat → Option LogEntry} {left slot : Nat}
    (h : ∀ s, slot < s → s ≤ slot + left → read s = read' s) :
    applyRange read left slot = applyRange read' left slot := by
  induction left generalizing slot with
  | zero => rfl
  | succ left ih =>
    simp only [applyRange]
    rw [h (slot + 1) (by omega) (by omega), ih fun s hlow hhigh => h s (by omega) (by omega)]

/-- Reads that agree over a range walk it to the same slot. -/
theorem systemWalk_congr {read read' : Nat → Option LogEntry} {left slot : Nat}
    (h : ∀ s, slot < s → s ≤ slot + left → read s = read' s) :
    systemWalk read left slot = systemWalk read' left slot := by
  induction left generalizing slot with
  | zero => rfl
  | succ left ih =>
    simp only [systemWalk]
    rw [h (slot + 1) (by omega) (by omega), ih fun s hlow hhigh => h s (by omega) (by omega)]

end Replica

end UvrrCore
