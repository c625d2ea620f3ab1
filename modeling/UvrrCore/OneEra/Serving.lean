import UvrrCore.Cascade
import UvrrCore.OneEra.Landing

/-!
# Normal operation in the first era

Proposals, acknowledgements and commits of serving replicas are steps of their nodes: a proposal
extends the log of its ballot, an accepted entry is acknowledged, and what a quorum acknowledged
is chosen.
-/

namespace UvrrCore

open Viewstamped

namespace Genesis

variable {g : Genesis} {a a' : Ledger} {sent : List Envelope} {node : Nat}
  {r : Replica SegmentedLog}

/-! ### Reading a tracked replica -/

theorem Tracks.primaryOf (htracks : g.Tracks a sent node r) {view : Ballot} (hera : view.era = 1) :
    r.primaryOf view = (config g.order).primary view.view := by
  unfold Replica.primaryOf
  rw [htracks.record.config, hera, g.table_record]
  simp

theorem Tracks.primary (htracks : g.Tracks a sent node r) {view : Ballot} (hera : view.era = 1)
    {sender : Nat} (h : r.primaryOf view = some sender) : g.setting.primary view = sender :=
  g.primary_eq (htracks.primaryOf hera ▸ h)

/-- A replica that is not fenced serves, or is still where it booted. -/
theorem Tracks.serving (htracks : g.Tracks a sent node r) (h : r.progress.status ≠ .viewChange) :
    (a.nodes node).retained = (a.nodes node).current := by
  rcases htracks.record.status with ⟨-, hserving⟩ | ⟨hfenced, -⟩ | ⟨-, hserving, -⟩
  · exact hserving
  · exact absurd hfenced h
  · exact hserving

theorem Tracks.fenced (htracks : g.Tracks a sent node r) (h : r.progress.status = .viewChange) :
    (a.nodes node).retained < (a.nodes node).current := by
  rcases htracks.record.status with ⟨hstatus, -⟩ | ⟨-, hfenced⟩ | ⟨hstatus, -⟩
  · rw [hstatus] at h
    cases h
  · exact hfenced
  · rw [hstatus] at h
    cases h

/-- A member that adopts a view of the first era serves it. -/
theorem Tracks.adoptedStatus (htracks : g.Tracks a sent node r) {view : Ballot}
    (hera : view.era = 1) (h : r.progress.status ≠ .viewChange) :
    r.adoptedStatus view = .normal := by
  have hmember : ((config g.order).weightOf r.own).isSome = true := by
    rw [htracks.own]
    unfold Configuration.weightOf config
    rw [Option.isSome_map, List.find?_isSome]
    exact ⟨{ node := node, weight := 1 },
      List.mem_map.mpr ⟨node, htracks.member, rfl⟩, by simp⟩
  unfold Replica.adoptedStatus
  rw [htracks.record.config, hera, g.table_record]
  simp only [g.table_config, hmember, Bool.and_true]
  rcases htracks.record.status with ⟨hstatus, -⟩ | ⟨hfenced, -⟩ | ⟨hstatus, -⟩
  · rw [hstatus]
    rfl
  · exact absurd hfenced h
  · rw [hstatus]
    rfl

/-- What the journal and an overlay of the log's entries offer is the log's. -/
theorem merged_logAt {log overlay : List LogEntry} {journal : SegmentedLog}
    (hreads : ∀ slot entry, entryAt overlay slot = none →
      Journal.get journal slot = some entry → logAt log slot = some entry)
    (hoverlay : Offers overlay log) {slot : Nat} {entry : LogEntry}
    (h : merged journal overlay slot = some entry) : logAt log slot = some entry := by
  unfold merged at h
  split at h
  · rename_i offered hoffered
    cases h
    have := hoverlay entry (List.mem_of_find?_eq_some hoffered)
    rwa [entryAt_slot hoffered] at this
  · rename_i hnone
    exact hreads slot entry hnone h

/-- A commit folds to the configuration it starts from, or fails to read. -/
theorem Tracks.fold (htracks : g.Tracks a sent node r) (hinv : Inv g.setting a')
    (overlay : List LogEntry) (through : Nat) (paced : Bool)
    (hread : ∀ slot entry, r.progress.committed < slot → slot ≤ through →
      merged r.journal overlay slot = some entry → logAt (a'.nodes node).log slot = some entry) :
    (∃ slot, r.foldCommitted overlay r.progress.committed through paced =
      .error (.unavailable slot)) ∨
    ∃ folded, r.foldCommitted overlay r.progress.committed through paced = .ok folded ∧
      folded.config = g.table ∧ folded.covered = max r.progress.committed through ∧
      folded.stopped = false ∧ folded.bump = none := by
  have hgenesis := htracks.record.genesis
  rcases Replica.foldCommitted_operations paced fun slot entry hlow hhigh hentry =>
    good_operation hinv (hread slot entry hlow hhigh hentry) (by omega) with hfail | hfold
  · exact Or.inl hfail
  · exact Or.inr ⟨_, hfold, htracks.record.config, rfl, rfl, rfl⟩

/-! ### Proposals -/

theorem proposer_primary (htracks : g.Tracks a sent node r) {record : EraRecord}
    (h : r.proposerRecord = .ok record) :
    r.progress.status = .normal ∧ g.setting.primary (a.nodes node).retained = node := by
  have hserving := Replica.proposerRecord_ok h
  refine ⟨hserving, ?_⟩
  unfold Replica.proposerRecord Replica.currentRecord at h
  rw [htracks.record.config, htracks.record.era, g.table_record] at h
  simp only at h
  split at h
  · rename_i hprimary
    have hcurrent : (a.nodes node).retained = r.progress.current := by
      rw [← htracks.record.retained]
      exact (r.progress.current_eq_retained hserving).symm
    rw [hcurrent, ← htracks.own]
    exact g.primary_eq (by simpa using hprimary.2)
  · cases h

theorem propose_log (a : Ledger) (node : Nat) (entry : LogEntry) :
    (a.propose node entry).nodes node =
      { a.nodes node with log := (a.nodes node).log ++ [entry] } := by
  show ((a.append (a.nodes node).retained entry).move node _).nodes node = _
  exact move_self _ _

theorem proposalPlan_refines (hinv : Inv g.setting a) (htracks : g.Tracks a sent node r)
    (hwhole : a.Whole node) (hnormal : r.progress.status = .normal)
    (hprimary : g.setting.primary (a.nodes node).retained = node) {entry : LogEntry}
    (hslot : entry.slot = (a.nodes node).log.length + 1)
    (hoperation : entry.payload.isSystem = false) {recipients : List Nat} {era : Nat}
    {kind : InputKind} {plan : PlannedTransition}
    (h : r.proposalPlan [entry] entry.slot recipients era
      { header := { view := r.progress.current, slot := entry.slot }
        body := .prepare entry r.progress.committed } .unchanged kind = .ok plan) :
    g.Refines a sent node r plan := by
  have hserving := htracks.serving (by rw [hnormal]; decide)
  have hstep : Step g.setting a (a.propose node entry) :=
    .propose node entry hwhole hserving hprimary ⟨hslot, fun _ => hoperation⟩
  have hothers : ∀ m ≠ node, (a.propose node entry).nodes m = a.nodes m := by
    intro m hm
    show ((a.append (a.nodes node).retained entry).move node _).nodes m = _
    rw [nodes_move, if_neg hm]
    rfl
  have hadvances := (Advances.refl g node a).tail hstep hothers
  have hgrows := hadvances.grows hinv
  have hnode := propose_log a node entry
  obtain ⟨candidate, hcandidate, h⟩ := bind_eq_ok.mp h
  cases pure_eq_ok.mp h
  have hdata := Replica.candidateWith_ok hcandidate
  have hr := htracks.record
  have hcurrent : r.progress.current = (a.nodes node).retained :=
    hr.current.trans hserving.symm
  refine ⟨_, hadvances, htracks.landed hgrows ?_ ?_ ?_ rfl (Or.inl (by rw [hnormal]; decide))
    htracks.offered ⟨fun hne => absurd rfl hne, rfl, rfl⟩ ?_ (fun _ hok => nomatch hok) ?_⟩
  · show g.Recorded _ candidate.toProgressData
    rw [hdata, hnode]
    exact
      { config := hr.config
        era := hr.era
        current := hr.current
        retained := hr.retained
        accepted := by
          show entry.slot = ((a.nodes node).log ++ [entry]).length
          rw [List.length_append, List.length_singleton]
          exact hslot
        committed := hr.committed
        genesis := hr.genesis
        status := Or.inl ⟨hnormal, hserving⟩ }
  · show candidate.retained = _
    rw [hdata]
    rfl
  · show Mutates _ (.accept [entry]) _
    rw [hnode]
    rfl
  · intro p hp
    obtain rfl := List.mem_singleton.mp hp
    rfl
  · intro effect hmem
    obtain ⟨recipient, -, rfl⟩ := mem_sendAll hmem
    refine ⟨hr.era, ?_, ?_⟩
    · show logAt ((a.propose node entry).hist r.progress.current) entry.slot = some entry
      have hlog := hinv.primary_log hwhole hserving hprimary
      have hhist : (a.propose node entry).hist r.progress.current =
          (a.nodes node).log ++ [entry] := by
        rw [hcurrent]
        show (a.append (a.nodes node).retained entry).hist (a.nodes node).retained = _
        rw [hlog]
        simp [State.append]
      rw [hhist, hslot]
      show ((a.nodes node).log ++ [entry])[(a.nodes node).log.length]? = some entry
      simp
    · show g.Known _ r.progress.current r.progress.committed
      rw [hcurrent, hr.committed]
      exact (known_committed hinv node).mono hgrows

/-- **A proposal** extends the log of the ballot. -/
theorem planPropose_refines (hinv : Inv g.setting a) (htracks : g.Tracks a sent node r)
    (hwhole : a.Whole node) {operation : Operation} {plan : PlannedTransition}
    (h : r.planPropose operation = .ok plan) : g.Refines a sent node r plan := by
  obtain ⟨record, hrecord, h⟩ := bind_eq_ok.mp h
  obtain ⟨slot, hslot, h⟩ := bind_eq_ok.mp h
  obtain ⟨hnormal, hprimary⟩ := proposer_primary htracks hrecord
  have hnext : slot = (a.nodes node).log.length + 1 := by
    unfold Replica.nextFreeSlot at hslot
    split at hslot
    · rename_i next hnext
      cases hslot
      rw [Slot.next_eq_some] at hnext
      rw [hnext.2, htracks.record.accepted]
    · cases hslot
  exact proposalPlan_refines hinv htracks hwhole hnormal hprimary hnext rfl h

/-! ### Commits -/

/-- A bookkeeping that counts votes at most. -/
structure CountsOnly (bookkeeping : Bookkeeping) : Prop extends Untouched bookkeeping where
  view : bookkeeping.viewChange = .unchanged
  stalled : bookkeeping.stalled = .unchanged
  proposals : bookkeeping.proposals = []

theorem countsOnly_default : CountsOnly {} := ⟨untouched_default, rfl, rfl, rfl⟩

/-- **A commit of a replica that is not fenced**: the node's log may have grown, and a longer
part of it is known to be chosen. -/
theorem commit_refines {a₁ : Ledger} (hinv₁ : Inv g.setting a₁) (hgrows : Grows a a₁)
    (hadvances : g.Advances node a a₁) (htracks : g.Tracks a sent node r)
    (hne : r.progress.status ≠ .viewChange) (log' : List LogEntry)
    (hnode : a₁.nodes node = { a.nodes node with log := log' }) {covered applied : Nat}
    (hle : r.progress.committed ≤ covered) (hlen : covered ≤ log'.length)
    (hknown : g.Known a₁ (a.nodes node).retained covered) {plan : PlannedTransition}
    {status : Status} (hstatus : status = .normal ∨ (status = .joining ∧ log'.length = covered))
    (hcandidate : plan.candidate.toProgressData =
      r.recordWith status log'.length covered applied g.table none)
    (hlog : Mutates (a.nodes node).log plan.journal log') (hcounts : CountsOnly plan.bookkeeping)
    (hoks : ∀ ok ∈ plan.bookkeeping.oks, ok.1 ≤ a₁.acked ok.2 r.progress.retained)
    (heffects : ∀ a₂, Inv g.setting a₂ → Grows a₁ a₂ →
      a₂.nodes node = { a.nodes node with log := log', committed := covered } →
      ∀ effect ∈ plan.effects, g.Effective a₂ node effect) :
    g.Refines a sent node r plan := by
  have hstep : Step g.setting a₁
      (a₁.move node { a₁.nodes node with committed := covered }) := by
    refine .learn node covered ?_ ?_
    · rw [hnode]
      exact hlen
    · rw [hnode]
      exact hknown
  have hadvances' := hadvances.tail hstep (move_others node _)
  obtain ⟨hinv₂, hgrows₂⟩ := hinv₁.step hstep
  have hnode₂ : (a₁.move node { a₁.nodes node with committed := covered }).nodes node =
      { a.nodes node with log := log', committed := covered } := by
    rw [move_self, hnode]
  have hr := htracks.record
  refine ⟨_, hadvances', htracks.landed (hgrows.trans hgrows₂) ?_ ?_ ?_ hcounts.view
    (Or.inl hne) ?_ hcounts.toUntouched (fun p hp => ?_)
    (fun ok hok => (hoks ok hok).trans (hgrows₂.acked _ _)) (heffects _ hinv₂ hgrows₂ hnode₂)⟩
  · rw [hcandidate, hnode₂]
    exact
      { config := rfl
        era := hr.era
        current := hr.current
        retained := hr.retained
        accepted := rfl
        committed := rfl
        genesis := hr.genesis.trans hle
        status := by
          rcases hstatus with hnormal | ⟨hjoining, hheld⟩
          · exact Or.inl ⟨hnormal, htracks.serving hne⟩
          · exact Or.inr (Or.inr ⟨hjoining, htracks.serving hne, hheld⟩) }
  · rw [hcandidate]
    rfl
  · rw [hnode₂]
    exact hlog
  · rw [hcounts.stalled]
    exact htracks.offered
  · rw [hcounts.proposals] at hp
    cases hp

/-- What a commit applies from the journal as it was. -/
theorem journal_applies_effective {a₂ : Ledger} (hinv : Inv g.setting a₂)
    (htracks : g.Tracks a sent node r) {log' : List LogEntry} {covered : Nat}
    (hnode : a₂.nodes node = { a.nodes node with log := log', committed := covered })
    (hmore : (a.nodes node).log <+: log') {start : Nat} {effects : List Effect}
    (h : r.applyEffects start covered = .ok effects) :
    ∀ effect ∈ effects, g.Effective a₂ node effect := by
  refine applies_effective hinv h (fun slot entry _ _ hentry => ?_) (by rw [hnode])
  rw [hnode]
  exact logAt_mono hmore (htracks.reads slot entry hentry)

theorem known_max (hinv : Inv g.setting a) (htracks : g.Tracks a sent node r) {frontier : Nat}
    (h : g.Known a (a.nodes node).retained frontier) :
    g.Known a (a.nodes node).retained (max r.progress.committed frontier) := by
  rw [htracks.record.committed]
  exact (known_committed hinv node).max h

/-- The acknowledgement of a slot the node has acknowledged. -/
theorem prepareOk_effective {a₂ : Ledger} {view : Ballot} {recipient slot : Nat}
    (hera : view.era = 1) (hacked : slot ≤ a₂.acked node view) :
    g.Effective a₂ node (Replica.prepareOk view recipient slot) := ⟨hera, hacked⟩

/-- A serving node that is whole acknowledges its log. -/
theorem ack_advances (hinv : Inv g.setting a) (hwhole : a.Whole node)
    (hserving : (a.nodes node).retained = (a.nodes node).current) :
    g.Advances node a (a.ack node) ∧ Inv g.setting (a.ack node) ∧ Grows a (a.ack node) ∧
      (a.ack node).acked node (a.nodes node).retained = (a.nodes node).log.length := by
  have hstep : Step g.setting a (a.ack node) := .ack node hwhole hserving
  obtain ⟨hinv', hgrows⟩ := hinv.step hstep
  exact ⟨(Advances.refl g node a).tail hstep fun _ _ => rfl, hinv', hgrows, by
    rw [acked_ack, if_pos ⟨rfl, rfl⟩]⟩

/-- A retransmission is acknowledged again, with the commit it carries. -/
theorem planHeldPrepare_refines (hinv : Inv g.setting a) (htracks : g.Tracks a sent node r)
    (hwhole : a.Whole node) (hne : r.progress.status ≠ .viewChange) {sender : Nat}
    {entry : LogEntry} {piggybacked : Nat} {kind : InputKind} {plan : PlannedTransition}
    (hknown : g.Known a (a.nodes node).retained piggybacked)
    (hheld : entry.slot ≤ r.progress.accepted)
    (h : r.planHeldPrepare sender entry piggybacked .normal kind = .ok plan)
    (hfault : plan.fault = none) : g.Refines a sent node r plan := by
  have hr := htracks.record
  have hserving := htracks.serving hne
  have haccepted := r.progress.committed_le_accepted
  obtain ⟨hadvances, hinv', hgrows, hacked⟩ := ack_advances hinv hwhole hserving
  unfold Replica.planHeldPrepare at h
  simp only at h
  split at h
  · cases h
  · split at h
    · exact dropPlan_refines htracks h
    · rcases htracks.fold hinv [] (max r.progress.committed (min piggybacked r.progress.accepted))
        true (fun slot held _ _ hget => htracks.reads slot held hget) with ⟨slot, hfold⟩ |
        ⟨folded, hfold, hconfig, hcovered, -, hbump⟩
      · rw [hfold] at h
        cases h
      · rw [hfold] at h
        obtain ⟨applied, -, h⟩ := bind_eq_ok.mp h
        obtain ⟨candidate, hcandidate, h⟩ := bind_eq_ok.mp h
        obtain ⟨applies, happlies, h⟩ := bind_eq_ok.mp h
        cases pure_eq_ok.mp h
        have hdata := Replica.candidateWith_ok hcandidate
        rw [hconfig, hbump, hr.accepted] at hdata
        refine commit_refines hinv' hgrows hadvances htracks hne (a.nodes node).log rfl
          (by omega) (by rw [← hr.accepted]; omega) ?_ (Or.inl rfl) hdata rfl countsOnly_default
          (fun _ hok => nomatch hok) fun a₂ hinv₂ hgrows₂ hnode effect hmem => ?_
        · exact ((known_max hinv htracks hknown).mono hgrows).le le_rfl (by omega)
        · rcases List.mem_cons.mp hmem with rfl | hmem
          · refine prepareOk_effective hr.era (le_trans ?_ (hgrows₂.acked _ _))
            rw [hr.current, ← hserving, hacked, ← hr.accepted]
            exact hheld
          · exact journal_applies_effective hinv₂ htracks hnode List.prefix_rfl happlies effect hmem

/-- **The next entry of the ballot's log is accepted** and acknowledged, with the commit it
carries. -/
theorem planNextPrepare_refines (hinv : Inv g.setting a) (htracks : g.Tracks a sent node r)
    (hwhole : a.Whole node) (hne : r.progress.status ≠ .viewChange) {sender : Nat} {view : Ballot}
    {entry : LogEntry} {piggybacked : Nat} {kind : InputKind} {plan : PlannedTransition}
    (hknown : g.Known a (a.nodes node).retained piggybacked)
    (hentry : logAt (a.hist (a.nodes node).retained) entry.slot = some entry)
    (hnext : entry.slot = r.progress.accepted + 1)
    (h : r.planNextPrepare sender view entry piggybacked .normal kind = .ok plan)
    (hfault : plan.fault = none) : g.Refines a sent node r plan := by
  have hr := htracks.record
  have hserving := htracks.serving hne
  have haccepted := r.progress.committed_le_accepted
  rw [hr.accepted] at hnext
  -- The node's log with the entry is still an initial segment of its ballot's.
  have hmore : (a.nodes node).log <+: (a.nodes node).log ++ [entry] := List.prefix_append _ _
  have hlog : (a.nodes node).log ++ [entry] <+: a.hist (a.nodes node).retained := by
    refine segment_of_agree fun i hi => ?_
    rw [List.length_append, List.length_singleton] at hi
    by_cases hlt : i < (a.nodes node).log.length
    · exact (agree_of_segment ((hinv.good node).serving hserving) hlt).mono_left hmore
    · obtain rfl : i = (a.nodes node).log.length := by omega
      rw [hnext] at hentry
      exact ⟨entry, by simp, hentry⟩
  have hextend : Step g.setting a
      (a.move node { a.nodes node with log := (a.nodes node).log ++ [entry] }) :=
    .extend node _ hserving hmore hlog
  obtain ⟨hinv₁, hgrows₁⟩ := hinv.step hextend
  have hwhole₁ := hwhole.step hextend
  have hnode₁ : (a.move node { a.nodes node with log := (a.nodes node).log ++ [entry] }).nodes
      node = { a.nodes node with log := (a.nodes node).log ++ [entry] } := move_self _ _
  have hadvances₁ := (Advances.refl g node a).tail hextend (move_others node _)
  generalize a.move node { a.nodes node with log := (a.nodes node).log ++ [entry] } = a₁
    at hextend hinv₁ hgrows₁ hwhole₁ hnode₁ hadvances₁
  have hserving₁ : (a₁.nodes node).retained = (a₁.nodes node).current := by
    rw [hnode₁]
    exact hserving
  obtain ⟨hack, hinv', hgrows', hacked⟩ := ack_advances hinv₁ hwhole₁ hserving₁
  have hadvances : g.Advances node a (a₁.ack node) :=
    ⟨hadvances₁.steps.trans hack.steps,
      fun m hm => (hack.others m hm).trans (hadvances₁.others m hm)⟩
  have hgrows := hgrows₁.trans hgrows'
  have hread : ∀ slot held, Journal.get r.journal slot = some held →
      logAt (a₁.nodes node).log slot = some held := by
    intro slot held hget
    rw [hnode₁]
    exact logAt_mono hmore (htracks.reads slot held hget)
  have hoffers : Offers [entry] (a₁.nodes node).log := by
    intro other hmem
    obtain rfl := List.mem_singleton.mp hmem
    rw [hnode₁, hnext]
    show ((a.nodes node).log ++ [other])[(a.nodes node).log.length]? = some other
    simp
  unfold Replica.planNextPrepare at h
  simp only at h
  rcases htracks.fold hinv₁ [entry] (max r.progress.committed (min piggybacked entry.slot)) true
    (fun slot held _ _ hmerged => merged_logAt (fun slot held _ hget => hread slot held hget)
      hoffers hmerged) with ⟨slot, hfold⟩ | ⟨folded, hfold, hconfig, hcovered, -, hbump⟩
  · rw [hfold] at h
    cases h
  · rw [hfold] at h
    obtain ⟨refusal, -, h⟩ := bind_eq_ok.mp h
    split at h
    · exact dropPlan_refines htracks h
    · split at h
      · exact dropPlan_refines htracks h
      · obtain ⟨applied, -, h⟩ := bind_eq_ok.mp h
        obtain ⟨candidate, hcandidate, h⟩ := bind_eq_ok.mp h
        obtain ⟨applies, happlies, h⟩ := bind_eq_ok.mp h
        cases pure_eq_ok.mp h
        have hdata := Replica.candidateWith_ok hcandidate
        have hlen : entry.slot = ((a.nodes node).log ++ [entry]).length := by
          rw [List.length_append, List.length_singleton]
          exact hnext
        rw [hconfig, hbump, hlen] at hdata
        refine commit_refines hinv' hgrows hadvances htracks hne
          ((a.nodes node).log ++ [entry]) hnode₁ (by omega) ?_ ?_ (Or.inl rfl) hdata rfl
          countsOnly_default (fun _ hok => nomatch hok)
          fun a₂ hinv₂ hgrows₂ hnode effect hmem => ?_
        · rw [← hlen]
          have := hr.accepted
          omega
        · exact ((known_max hinv htracks hknown).mono hgrows).le le_rfl (by omega)
        · rcases List.mem_cons.mp hmem with rfl | hmem
          · refine prepareOk_effective hr.era (le_trans ?_ (hgrows₂.acked _ _))
            rw [hnode₁] at hacked
            rw [hr.current, ← hserving, hacked, hlen]
          · exact journal_applies_effective hinv₂ htracks hnode hmore happlies effect hmem

end Genesis

/-! ### Counting acknowledgements -/

namespace Genesis

variable {g : Genesis} {a a' : Ledger} {sent : List Envelope} {node : Nat}
  {r : Replica SegmentedLog}

theorem Tracks.leads (htracks : g.Tracks a sent node r) (h : r.isLeader = true) :
    g.setting.primary (a.nodes node).retained = node ∧
      (a.nodes node).retained = (a.nodes node).current := by
  have hnormal := Replica.isLeader_normal h
  have hserving := htracks.serving (by rw [hnormal]; decide)
  unfold Replica.isLeader at h
  rw [Bool.and_eq_true, beq_iff_eq, beq_iff_eq] at h
  refine ⟨?_, hserving⟩
  rw [hserving, ← htracks.record.current, ← htracks.own]
  exact htracks.primary htracks.record.era h.2

/-- A slot whose quorum vouches for it is chosen. -/
theorem chosen_of_slotHolds (hinv : Inv g.setting a) (htracks : g.Tracks a sent node r)
    (hleads : r.isLeader = true) {vote : Option (Nat × Nat)}
    (hvote : ∀ v ∈ vote, v.2 ≤ a.acked v.1 (a.nodes node).retained) {s : Nat}
    (hs : s + 1 ≤ r.progress.accepted) (h : r.slotHolds vote (s + 1) = true) :
    a.Chosen g.setting (a.nodes node).retained s := by
  obtain ⟨hprimary, hserving⟩ := htracks.leads hleads
  unfold Replica.slotHolds at h
  rw [htracks.strategy, htracks.record.config, g.table_config] at h
  refine ⟨{n | s < a.acked n (a.nodes node).retained}, g.quorum_of_isQuorum h fun n hn => ?_,
    fun n hn => hn⟩
  have hknown : n ∈ r.own :: ((r.proposals.get? (s + 1)).map Proposal.oks).getD [] →
      s < a.acked n (a.nodes node).retained := by
    intro hmem
    rcases List.mem_cons.mp hmem with rfl | hmem
    · -- The primary has acknowledged all of its ballot's log.
      have hlead := hinv.leads _ (hinv.good node).started
      have hlen := ((hinv.good node).serving hserving).length_le
      rw [htracks.record.accepted] at hs
      rw [show (a.nodes node).snapshot.retained = (a.nodes node).retained from rfl,
        hprimary] at hlead
      rw [htracks.own]
      have : (a.nodes node).log.length ≤ (a.hist (a.nodes node).retained).length := hlen
      omega
    · cases hget : r.proposals.get? (s + 1) with
      | none =>
        rw [hget] at hmem
        cases hmem
      | some proposal =>
        rw [hget] at hmem
        have := htracks.counted (s + 1) proposal hget n hmem
        rwa [htracks.record.retained] at this
  unfold Replica.vouchers at hn
  cases vote with
  | none => exact hknown hn
  | some v =>
    obtain ⟨voter, voted⟩ := v
    simp only at hn
    split at hn
    · rename_i hcovers
      rcases List.mem_append.mp hn with hn | hn
      · exact hknown hn
      · obtain rfl := List.mem_singleton.mp hn
        have := hvote (n, voted) rfl
        exact lt_of_lt_of_le hcovers.1 this
    · exact hknown hn

/-- The effects of a commit announce nothing that is not chosen. -/
theorem commitBatchEffects_effective {a₂ : Ledger} (hera : r.progress.current.era = 1)
    (through rounds slot : Nat) :
    ∀ effect ∈ r.commitBatchEffects through rounds slot, g.Effective a₂ node effect := by
  induction rounds generalizing slot with
  | zero => exact fun _ hmem => absurd hmem List.not_mem_nil
  | succ rounds ih =>
    rw [Replica.commitBatchEffects]
    simp only
    split
    · exact fun _ hmem => absurd hmem List.not_mem_nil
    · split
      · exact fun _ hmem => absurd hmem List.not_mem_nil
      · split
        · exact ih _
        · intro effect hmem
          rcases List.mem_append.mp hmem with hmem | hmem
          · split at hmem
            · obtain ⟨recipient, -, rfl⟩ := mem_sendAll hmem
              exact ⟨hera, trivial⟩
            · cases hmem
          · exact ih _ effect hmem

/-- **The transition of a counted vote.** -/
theorem finishCommitQuorum_refines (hinv : Inv g.setting a) (htracks : g.Tracks a sent node r)
    (hleads : r.isLeader = true) {committed : Nat} {oks : List (Nat × Nat)} {kind : InputKind}
    {plan : PlannedTransition} (hle : r.progress.committed ≤ committed)
    (hlen : committed ≤ r.progress.accepted)
    (hchosen : ∀ s, r.progress.committed ≤ s → s < committed →
      a.Chosen g.setting (a.nodes node).retained s)
    (hoks : ∀ ok ∈ oks, ok.1 ≤ a.acked ok.2 (a.nodes node).retained)
    (h : r.finishCommitQuorum committed oks kind = .ok plan) (hfault : plan.fault = none) :
    g.Refines a sent node r plan := by
  have hr := htracks.record
  have hnormal := Replica.isLeader_normal hleads
  have hne : r.progress.status ≠ .viewChange := by
    rw [hnormal]
    decide
  have hserving := htracks.serving hne
  have hoks' : ∀ ok ∈ oks, ok.1 ≤ a.acked ok.2 r.progress.retained := by
    rw [hr.retained]
    exact hoks
  unfold Replica.finishCommitQuorum at h
  simp only at h
  split at h
  · obtain ⟨plan', hplan, h⟩ := bind_eq_ok.mp h
    obtain ⟨candidate, hsame, rfl⟩ := Replica.emitPlan_ok hplan
    cases pure_eq_ok.mp h
    exact htracks.refines_same hsame rfl rfl htracks.offered ⟨fun hne => absurd rfl hne, rfl, rfl⟩
      rfl hoks' fun _ hmem => nomatch hmem
  · rcases htracks.fold hinv [] committed true
      (fun slot held _ _ hget => htracks.reads slot held hget) with ⟨slot, hfold⟩ |
      ⟨folded, hfold, hconfig, hcovered, -, hbump⟩
    · rw [hfold] at h
      cases h
    · rw [hfold] at h
      obtain ⟨overlap, hoverlap, h⟩ := bind_eq_ok.mp h
      have hnone : overlap = (folded.config, [], .unchanged) := by
        unfold Replica.overlapSolicitation at hoverlap
        rw [htracks.planned] at hoverlap
        cases hoverlap
        rfl
      subst hnone
      obtain ⟨applied, -, h⟩ := bind_eq_ok.mp h
      obtain ⟨candidate, hcandidate, h⟩ := bind_eq_ok.mp h
      obtain ⟨applies, happlies, h⟩ := bind_eq_ok.mp h
      cases pure_eq_ok.mp h
      have hdata := Replica.candidateWith_ok hcandidate
      rw [hconfig, hbump, hr.accepted] at hdata
      have hexecution : r.planExecutionCommit r.progress.committed folded.covered =
          .unchanged := by
        unfold Replica.planExecutionCommit
        rw [htracks.planExecution]
      have hknown : g.Known a (a.nodes node).retained folded.covered := by
        intro s hs
        by_cases hold : s < (a.nodes node).committed
        · exact known_committed hinv node s hold
        · rw [← hr.committed] at hold
          exact ⟨_, le_rfl, hchosen s (by omega) (by omega)⟩
      refine commit_refines hinv (Grows.refl a) (Advances.refl g node a) htracks hne
        (a.nodes node).log rfl (by omega) (by rw [← hr.accepted]; omega) hknown (Or.inl rfl) hdata
        rfl ⟨⟨fun hne => absurd rfl hne, rfl, hexecution⟩, rfl, rfl, rfl⟩ hoks'
        fun a₂ hinv₂ hgrows₂ hnode effect hmem => ?_
      rcases List.mem_append.mp hmem with hmem | hmem
      · rcases List.mem_append.mp hmem with hmem | hmem
        · rcases List.mem_append.mp hmem with hmem | hmem
          · exact journal_applies_effective hinv₂ htracks hnode List.prefix_rfl happlies effect hmem
          · obtain ⟨recipient, -, rfl⟩ := mem_sendAll hmem
            refine ⟨hr.era, ?_⟩
            show g.Known a₂ r.progress.current folded.covered
            rw [hr.current, ← hserving]
            exact hknown.mono hgrows₂
        · exact commitBatchEffects_effective hr.era _ _ _ effect hmem
      · cases hmem

theorem vouchedSlots_mem {sender slot : Nat} {ok : Nat × Nat}
    (h : ok ∈ r.vouchedSlots sender slot) : ok.2 = sender ∧ ok.1 ≤ slot := by
  obtain ⟨covered, hcovered, rfl⟩ := List.mem_map.mp h
  obtain ⟨offset, hoffset, rfl⟩ := List.mem_map.mp (List.mem_filter.mp hcovered).1
  rw [List.mem_range] at hoffset
  exact ⟨rfl, by omega⟩

theorem countVote_refines (hinv : Inv g.setting a) (htracks : g.Tracks a sent node r)
    (hleads : r.isLeader = true) {sender slot : Nat}
    (hacked : slot ≤ a.acked sender (a.nodes node).retained)
    {unknown learner foreign duplicate : Diagnostic} {kind : InputKind}
    {plan : PlannedTransition}
    (h : r.countVote sender slot unknown learner foreign duplicate kind = .ok plan)
    (hfault : plan.fault = none) : g.Refines a sent node r plan := by
  have hfrontier : ∀ vote : Option (Nat × Nat),
      (∀ v ∈ vote, v.2 ≤ a.acked v.1 (a.nodes node).retained) →
      r.progress.committed ≤ r.commitCascadeFrontier vote ∧
        r.commitCascadeFrontier vote ≤ r.progress.accepted ∧
        ∀ s, r.progress.committed ≤ s → s < r.commitCascadeFrontier vote →
          a.Chosen g.setting (a.nodes node).retained s := by
    intro vote hvote
    obtain ⟨hle, hbound, hall⟩ := Replica.cascade_spec (r := r) vote
      (r.progress.accepted - r.progress.committed) r.progress.committed_le_accepted
    refine ⟨hle, hbound, fun s hlow hhigh => ?_⟩
    have hs : s + 1 ≤ r.progress.accepted := Nat.le_trans hhigh hbound
    exact chosen_of_slotHolds hinv htracks hleads hvote hs (hall (s + 1) (by omega) hhigh)
  unfold Replica.countVote at h
  split at h
  · exact dropPlan_refines htracks h
  · obtain ⟨plan', hplan, h⟩ := bind_eq_ok.mp h
    cases pure_eq_ok.mp h
    obtain ⟨hle, hbound, hchosen⟩ := hfrontier none (by simp)
    exact (finishCommitQuorum_refines hinv htracks hleads hle hbound hchosen
      (by simp) hplan hfault).withDiagnostic learner
  · split at h
    · exact dropPlan_refines htracks h
    · split at h
      · exact dropPlan_refines htracks h
      · obtain ⟨hle, hbound, hchosen⟩ := hfrontier (some (sender, slot)) (by
          intro v hv
          cases hv
          exact hacked)
        refine finishCommitQuorum_refines hinv htracks hleads hle hbound hchosen
          (fun ok hok => ?_) h hfault
        obtain ⟨hsender, hcovered⟩ := vouchedSlots_mem hok
        rw [hsender]
        exact hcovered.trans hacked

/-- **An acknowledgement** is counted for the ballot it was given in. -/
theorem planPrepareOk_refines (hinv : Inv g.setting a) (htracks : g.Tracks a sent node r)
    {sender : Nat} {message : Message} {kind : InputKind} {plan : PlannedTransition}
    (hacked : message.header.slot ≤ a.acked sender message.header.view)
    (h : r.planPrepareOk sender message kind = .ok plan) (hfault : plan.fault = none) :
    g.Refines a sent node r plan := by
  unfold Replica.planPrepareOk at h
  simp only at h
  split at h
  · exact dropPlan_refines htracks h
  · rename_i hleads
    rw [Bool.not_eq_true, Bool.not_eq_false'] at hleads
    split at h
    · exact dropPlan_refines htracks h
    · rename_i hview
      rw [not_not] at hview
      refine countVote_refines hinv htracks hleads ?_ h hfault
      rw [(htracks.leads hleads).2, ← htracks.record.current, ← hview]
      exact hacked

end Genesis

end UvrrCore
