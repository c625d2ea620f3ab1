import UvrrCore.Promise.Handlers
import UvrrCore.OneEra.Relation

/-!
# Landing the transitions of one node

What the handlers of the first era share: folds over client operations change no configuration,
what a commit applies is chosen, and plans that leave the open view change alone land by
`Tracks.landed`.
-/

namespace UvrrCore

open Viewstamped

/-! ### Folds over client operations -/

section Folds

variable {J : Type} [Journal J]

theorem foldSlotsThrough_operations {read : Nat → Option LogEntry} (runFuel : Nat)
    (current : Ballot) {through : Nat} (paced : Bool) (rounds : Nat) (folding : Folding)
    (hops : ∀ slot entry, folding.covered < slot → slot ≤ through → read slot = some entry →
      entry.payload.isSystem = false) (hrounds : through - folding.covered ≤ rounds) :
    (∃ slot, foldSlotsThrough read runFuel current through paced rounds folding =
      .error (.unavailable slot)) ∨
    foldSlotsThrough read runFuel current through paced rounds folding =
      .ok { folding with covered := max folding.covered through } := by
  induction rounds generalizing folding with
  | zero =>
    refine Or.inr ?_
    rw [foldSlotsThrough, max_eq_left (by omega)]
  | succ rounds ih =>
    simp only [foldSlotsThrough]
    split
    · rename_i hdone
      refine Or.inr ?_
      rw [max_eq_left hdone]
    · rename_i hmore
      split
      · exact Or.inl ⟨_, rfl⟩
      · rename_i entry hread
        have hop := hops _ entry (Nat.lt_succ_self _) (by omega) hread
        split
        · have hrest := ih { folding with covered := folding.covered + 1 }
            (fun slot entry hlt hle => hops slot entry (Nat.lt_of_succ_lt hlt) hle)
            (by show through - (folding.covered + 1) ≤ rounds; omega)
          simp only at hrest
          rw [show max folding.covered through = max (folding.covered + 1) through by omega]
          exact hrest
        · rename_i op hpayload
          rw [hpayload] at hop
          cases hop

namespace Replica

/-- **A commit of client operations** covers its range and changes no configuration. -/
theorem foldCommitted_operations {r : Replica J} {overlay : List LogEntry}
    {start through : Nat} (paced : Bool)
    (hops : ∀ slot entry, start < slot → slot ≤ through →
      merged r.journal overlay slot = some entry → entry.payload.isSystem = false) :
    (∃ slot, r.foldCommitted overlay start through paced = .error (.unavailable slot)) ∨
    r.foldCommitted overlay start through paced =
      .ok { config := r.progress.config, covered := max start through, stopped := false
            bump := none } := by
  have hfold := foldSlotsThrough_operations (r.runFuel overlay) r.progress.current paced
    (through - start)
    { table := r.progress.config, covered := start
      running := if r.progress.status = .normal then some r.progress.current else none
      stopped := false } hops (Nat.le_refl _)
  unfold foldCommitted
  simp only
  rcases hfold with ⟨slot, hfold⟩ | hfold
  · exact Or.inl ⟨slot, by rw [hfold]⟩
  · refine Or.inr ?_
    rw [hfold]
    simp only [Except.ok.injEq, FoldedCommit.mk.injEq, true_and]
    split <;> simp

end Replica

end Folds

namespace Genesis

variable {g : Genesis} {a a' : Ledger} {sent : List Envelope} {node : Nat}
  {r : Replica SegmentedLog}

/-! ### One node moves -/

/-- Steps that leave every other node as it is. -/
structure Advances (g : Genesis) (node : Nat) (a a' : Ledger) : Prop where
  steps : Steps g.setting a a'
  others : ∀ m ≠ node, a'.nodes m = a.nodes m

theorem Advances.refl (g : Genesis) (node : Nat) (a : Ledger) : g.Advances node a a :=
  ⟨Relation.ReflTransGen.refl, fun _ _ => rfl⟩

theorem Advances.tail {a'' : Ledger} (h : g.Advances node a a') (hstep : Step g.setting a' a'')
    (hothers : ∀ m ≠ node, a''.nodes m = a'.nodes m) : g.Advances node a a'' :=
  ⟨h.steps.tail hstep, fun m hm => (hothers m hm).trans (h.others m hm)⟩

theorem Advances.inv (h : g.Advances node a a') (hinv : Inv g.setting a) :
    Inv g.setting a' := (hinv.steps h.steps).1

theorem Advances.grows (h : g.Advances node a a') (hinv : Inv g.setting a) : Grows a a' :=
  (hinv.steps h.steps).2

theorem move_others (node : Nat) (ν : Node Ballot LogEntry) :
    ∀ m ≠ node, (a.move node ν).nodes m = a.nodes m := by
  intro m hm
  rw [nodes_move, if_neg hm]

theorem move_self (node : Nat) (ν : Node Ballot LogEntry) :
    (a.move node ν).nodes node = ν := by
  rw [nodes_move, if_pos rfl]

/-- **A plan is a move of its node**: it lands in a state that steps of the node lead to. -/
def Refines (g : Genesis) (a : Ledger) (sent : List Envelope) (node : Nat)
    (r : Replica SegmentedLog) (plan : PlannedTransition) : Prop :=
  ∃ a', g.Advances node a a' ∧ g.Landed a' sent node r (a.nodes node).log plan

/-! ### What a log's entries are -/

theorem good_operation (hinv : Inv g.setting a) {slot : Nat} {entry : LogEntry}
    (h : logAt (a.nodes node).log slot = some entry) (hslot : 2 < slot) :
    entry.payload.isSystem = false := by
  cases slot with
  | zero => cases h
  | succ i => exact ((hinv.good node).admits h).2 (by omega)

theorem hist_operation (hinv : Inv g.setting a) {ballot : Ballot} {slot : Nat} {entry : LogEntry}
    (h : logAt (a.hist ballot) slot = some entry) (hslot : 2 < slot) :
    entry.payload.isSystem = false := by
  cases slot with
  | zero => cases h
  | succ i => exact (hinv.hist_admits h).2 (by omega)

/-- What a node holds at a committed slot is chosen there. -/
theorem applies_committed (hinv : Inv g.setting a) {slot : Nat} {entry : LogEntry}
    (h : logAt (a.nodes node).log slot = some entry) (hle : slot ≤ (a.nodes node).committed)
    {id : OperationId} {payload : List UInt8} (hpayload : entry.payload = .operation id payload) :
    g.Applies a slot id payload := by
  cases slot with
  | zero => cases h
  | succ s =>
    obtain ⟨b, -, hchosen, v, hv, hhist⟩ := (hinv.good node).committed s hle
    have hv : (a.nodes node).log[s]? = some v := hv
    have heq : v = entry := Option.some.inj (hv.symm.trans h)
    exact ⟨b, s, entry, rfl, hchosen, heq ▸ hhist, hpayload⟩

/-- **What a commit applies is chosen.** -/
theorem applies_effective (hinv : Inv g.setting a) {read : Nat → Option LogEntry}
    {start through : Nat} {effects : List Effect}
    (h : applyRange read (through - start) start = .ok effects)
    (hread : ∀ slot entry, start < slot → slot ≤ through → read slot = some entry →
      logAt (a.nodes node).log slot = some entry)
    (hle : through ≤ (a.nodes node).committed) :
    ∀ effect ∈ effects, g.Effective a node effect := by
  intro effect hmem
  obtain ⟨slot, entry, id, payload, rfl, hlow, hhigh, hentry, hpayload⟩ := applyRange_mem h hmem
  have hslot : slot ≤ through := by omega
  exact applies_committed hinv (hread slot entry hlow hslot hentry) (hslot.trans hle) hpayload

/-! ### Bookkeeping -/

theorem counted_empty {retained : Ballot} : Counted a retained OrdMap.empty := by
  intro slot proposal hget
  rw [OrdMap.get?_empty] at hget
  cases hget

theorem Counted.insert {retained : Ballot} {proposals : OrdMap Nat Proposal}
    (h : Counted a retained proposals) {slot : Nat} {proposal : Proposal}
    (hoks : ∀ n ∈ proposal.oks, slot ≤ a.acked n retained) :
    Counted a retained (proposals.insert slot proposal) := by
  intro other found hget
  rw [OrdMap.get?_insert] at hget
  split at hget
  · rename_i heq
    cases hget
    rw [heq]
    exact hoks
  · exact h other found hget

theorem Counted.erase {retained : Ballot} {proposals : OrdMap Nat Proposal}
    (h : Counted a retained proposals) (slot : Nat) :
    Counted a retained (proposals.erase slot) := by
  intro other found hget
  rw [OrdMap.get?_erase] at hget
  split at hget
  · cases hget
  · exact h other found hget

theorem Counted.addOk {retained : Ballot} {proposals : OrdMap Nat Proposal}
    (h : Counted a retained proposals) {ok : Nat × Nat} (hok : ok.1 ≤ a.acked ok.2 retained) :
    Counted a retained (Replica.nextProposals.addOk proposals ok) := by
  unfold Replica.nextProposals.addOk OrdMap.modify
  cases hheld : proposals.get? ok.1 with
  | none => exact h
  | some held =>
    refine h.insert fun n hn => ?_
    simp only at hn
    split at hn
    · exact h ok.1 held hheld n hn
    · rcases List.mem_append.mp hn with hn | hn
      · exact h ok.1 held hheld n hn
      · rw [List.mem_singleton] at hn
        rw [hn]
        exact hok

theorem counted_next {retained : Ballot} {old : OrdMap Nat Proposal} {bookkeeping : Bookkeeping}
    (hold : bookkeeping.viewChange = .clear ∨ Counted a retained old)
    (hfresh : ∀ p ∈ bookkeeping.proposals, p.2.oks = [])
    (hoks : ∀ ok ∈ bookkeeping.oks, ok.1 ≤ a.acked ok.2 retained) :
    Counted a retained (Replica.nextProposals old bookkeeping) := by
  refine List.foldlRecOn bookkeeping.resolved OrdMap.erase ?_
    fun m hm slot _ => Counted.erase hm slot
  refine List.foldlRecOn bookkeeping.oks Replica.nextProposals.addOk ?_
    fun m hm ok hok => Counted.addOk hm (hoks ok hok)
  refine List.foldlRecOn bookkeeping.proposals _ ?_
    fun m hm p hp => Counted.insert hm fun n hn => by
      rw [hfresh p hp] at hn
      cases hn
  rcases hold with hclear | hold
  · rw [hclear]
    exact counted_empty
  · cases bookkeeping.viewChange with
    | clear => exact counted_empty
    | unchanged => exact hold
    | set attempt => exact hold

/-- What a plan does not touch. -/
structure Untouched (bookkeeping : Bookkeeping) : Prop where
  planned : bookkeeping.planned ≠ .unchanged → bookkeeping.planned = .clear
  reincarnation : bookkeeping.reincarnation = .unchanged
  planExecution : bookkeeping.planExecution = .unchanged

/-- **A plan that leaves the view change and the retained offer alone** lands by its record, its
mutation and its effects. -/
theorem Tracks.landed (htracks : g.Tracks a sent node r) (hgrows : Grows a a')
    {plan : PlannedTransition}
    (hrecord : g.Recorded (a'.nodes node) plan.candidate.toProgressData)
    (hretained : plan.candidate.retained = r.progress.retained)
    (hlog : Mutates (a.nodes node).log plan.journal (a'.nodes node).log)
    (hview : plan.bookkeeping.viewChange = .unchanged)
    (hstays : r.progress.status ≠ .viewChange ∨
      (plan.candidate.current = r.progress.current ∧ plan.candidate.status = .viewChange))
    (hoffered : Offered sent (plan.bookkeeping.stalled.applyTo r.stalled))
    (huntouched : Untouched plan.bookkeeping)
    (hfresh : ∀ p ∈ plan.bookkeeping.proposals, p.2.oks = [])
    (hoks : ∀ ok ∈ plan.bookkeeping.oks, ok.1 ≤ a'.acked ok.2 r.progress.retained)
    (heffects : ∀ effect ∈ plan.effects, g.Effective a' node effect) :
    g.Landed a' sent node r (a.nodes node).log plan where
  record := hrecord
  log := hlog
  attempt attempt hattempt := by
    rw [hview] at hattempt
    obtain ⟨htarget, hstatus, hpursued⟩ := htracks.attempt attempt hattempt
    rcases hstays with hne | ⟨hcurrent, hfenced⟩
    · exact absurd hstatus hne
    · rw [hcurrent, hretained]
      exact ⟨htarget, hfenced, hpursued.mono hgrows fun _ he => he⟩
  counted := by
    rw [hretained]
    exact counted_next (Or.inr (htracks.counted.mono hgrows)) hfresh hoks
  offered := hoffered
  planned := by
    rw [htracks.planned]
    by_cases heq : plan.bookkeeping.planned = .unchanged
    · rw [heq]
      rfl
    · rw [huntouched.planned heq]
      rfl
  reincarnation := by
    rw [huntouched.reincarnation, htracks.reincarnation]
    rfl
  planExecution := by
    rw [huntouched.planExecution, htracks.planExecution]
    rfl
  effects := heffects

/-! ### Plans that move nothing -/

theorem known_committed (hinv : Inv g.setting a) (node : Nat) :
    g.Known a (a.nodes node).retained (a.nodes node).committed := by
  intro s hs
  obtain ⟨b, hle, hchosen, -⟩ := (hinv.good node).committed s hs
  exact ⟨b, hle, hchosen⟩

theorem Recorded.same {ν : Node Ballot LogEntry} {p : ProgressData} (h : g.Recorded ν p)
    {p' : ProgressData} (heq : p' = { p with revision := p'.revision }) : g.Recorded ν p' := by
  rw [heq]
  exact ⟨h.config, h.era, h.current, h.retained, h.accepted, h.committed, h.genesis, h.status⟩

/-- A fenced replica stays fenced on the same record. -/
theorem stays_of_same {p : ProgressData}
    (hcurrent : p.current = r.progress.current) (hstatus : p.status = r.progress.status) :
    r.progress.status ≠ .viewChange ∨
      (p.current = r.progress.current ∧ p.status = .viewChange) := by
  by_cases hfenced : r.progress.status = .viewChange
  · exact Or.inr ⟨hcurrent, hstatus.trans hfenced⟩
  · exact Or.inl hfenced

/-- **A plan on the same record** needs no step. -/
theorem Tracks.refines_same (htracks : g.Tracks a sent node r) {plan : PlannedTransition}
    (hsame : r.SameRecord plan.candidate) (hjournal : plan.journal = .none)
    (hview : plan.bookkeeping.viewChange = .unchanged)
    (hoffered : Offered sent (plan.bookkeeping.stalled.applyTo r.stalled))
    (huntouched : Untouched plan.bookkeeping) (hfresh : plan.bookkeeping.proposals = [])
    (hoks : ∀ ok ∈ plan.bookkeeping.oks, ok.1 ≤ a.acked ok.2 r.progress.retained)
    (heffects : ∀ effect ∈ plan.effects, g.Effective a node effect) :
    g.Refines a sent node r plan := by
  unfold Replica.SameRecord at hsame
  refine ⟨a, Advances.refl g node a, htracks.landed (Grows.refl a) (htracks.record.same ?_) ?_ ?_
    hview (stays_of_same ?_ ?_) hoffered huntouched (fun p hp => ?_) hoks heffects⟩
  · rw [hsame]
  · rw [hsame]
  · rw [hjournal]
    rfl
  · rw [hsame]
  · rw [hsame]
  · rw [hfresh] at hp
    cases hp

theorem untouched_default : Untouched {} := ⟨fun h => absurd rfl h, rfl, rfl⟩

/-- The fetch effect and the open fetch are added to a plan that lands. -/
theorem Landed.withFetch {log : List LogEntry} {plan : PlannedTransition}
    (h : g.Landed a sent node r log plan) {view : Ballot} {recipient start : Nat} :
    g.Landed a sent node r log (plan.withFetch (Replica.fetch view recipient start)) :=
  { h with
    effects := fun effect hmem => by
      rcases List.mem_append.mp hmem with hmem | hmem
      · exact h.effects effect hmem
      · rw [List.mem_singleton] at hmem
        rw [hmem]
        exact ⟨trivial, trivial⟩ }

theorem Refines.withFetch {plan : PlannedTransition} (h : g.Refines a sent node r plan)
    {view : Ballot} {recipient start : Nat} :
    g.Refines a sent node r (plan.withFetch (Replica.fetch view recipient start)) := by
  obtain ⟨a', hadvances, hlanded⟩ := h
  exact ⟨a', hadvances, hlanded.withFetch⟩

theorem Landed.withDiagnostic {log : List LogEntry} {plan : PlannedTransition}
    (h : g.Landed a sent node r log plan) (diagnostic : Diagnostic) :
    g.Landed a sent node r log (plan.withDiagnostic diagnostic) := { h with }

theorem Refines.withDiagnostic {plan : PlannedTransition} (h : g.Refines a sent node r plan)
    (diagnostic : Diagnostic) : g.Refines a sent node r (plan.withDiagnostic diagnostic) := by
  obtain ⟨a', hadvances, hlanded⟩ := h
  exact ⟨a', hadvances, hlanded.withDiagnostic diagnostic⟩

theorem emitPlan_refines (htracks : g.Tracks a sent node r) {effects : List Effect}
    {kind : InputKind} {plan : PlannedTransition} (h : r.emitPlan effects kind = .ok plan)
    (heffects : ∀ effect ∈ effects, g.Effective a node effect) :
    g.Refines a sent node r plan := by
  obtain ⟨candidate, hsame, rfl⟩ := Replica.emitPlan_ok h
  exact htracks.refines_same hsame rfl rfl htracks.offered untouched_default rfl
    (fun _ hok => nomatch hok) heffects

theorem dropPlan_refines (htracks : g.Tracks a sent node r) {diagnostic : Diagnostic}
    {kind : InputKind} {plan : PlannedTransition} (h : r.dropPlan diagnostic kind = .ok plan) :
    g.Refines a sent node r plan := by
  obtain ⟨plan', hplan, h⟩ := bind_eq_ok.mp h
  rw [← pure_eq_ok.mp h]
  exact (emitPlan_refines htracks hplan fun _ hmem => nomatch hmem).withDiagnostic diagnostic

theorem breachPlan_fault {kind : InputKind} {plan : PlannedTransition}
    (h : r.breachPlan kind = .ok plan) : plan.fault ≠ none := by
  obtain ⟨candidate, -, rfl⟩ := Replica.breachPlan_ok h
  exact fun hnone => nomatch hnone

end Genesis

end UvrrCore
