import UvrrCore.Draft.Dispatch
import UvrrCore.Lawful
import UvrrCore.Reached

/-!
# The era tables of reachable replicas

A table starts with the two genesis records and grows by one era at a time, so behind its current
record it holds records of the era before and of no other (`EraTable.Sound`), all of them
established at committed slots. A commit keeps that, and so does every step of a replica.

The current configuration is one the fold makes from nothing. Past the genesis it has members, and
one of them a vote.
-/

namespace UvrrCore

/-- Past the genesis a configuration has a vote, and before it no members. -/
theorem Configuration.Reachable.total_pos {c : Configuration} (h : c.Reachable) :
    (c.era = 0 ∧ c.order = []) ∨ 0 < c.total :=
  h.lawful.imp id fun hlive => hlive.2.positive

/-- **A table grown one era at a time** by operations at slots up to a frontier. -/
structure EraTable.Sound (table : EraTable) (frontier : Nat) : Prop where
  reachable : table.current.config.Reachable
  era : table.current.config.era = table.current.era
  established : table.current.establishedBy ≤ frontier
  earlier : table.earlier ≠ []
  previous : ∀ record ∈ table.earlier,
    record.era + 1 = table.current.era ∧ record.establishedBy ≤ frontier
  genesis : initSlot ≤ frontier

namespace EraTable

theorem Sound.later {table : EraTable} {frontier later : Nat} (h : table.Sound frontier)
    (hle : frontier ≤ later) : table.Sound later :=
  ⟨h.reachable, h.era, h.established.trans hle, h.earlier,
    fun record hmem => ⟨(h.previous record hmem).1, (h.previous record hmem).2.trans hle⟩,
    h.genesis.trans hle⟩

theorem Sound.mark {table marked : EraTable} {frontier : Nat} (h : table.Sound frontier)
    (hmark : table.UpToPivot marked) : marked.Sound frontier := by
  rcases hmark with rfl | ⟨pivot, hmark⟩
  · exact h
  · unfold withTransitionPivot at hmark
    rw [if_pos rfl] at hmark
    cases hmark
    exact ⟨h.reachable, h.era, h.established, h.earlier, h.previous, h.genesis⟩

end EraTable

/-- Behind the genesis slots an accepted operation establishes the next era. -/
theorem Configuration.apply_era {c next : Configuration} {op : SystemOperation} {slot : Nat}
    (h : c.apply op slot = .ok next) (hslot : initSlot < slot) : Era.next c.era = some next.era := by
  cases apply_established h with
  | void hempty hnext =>
    rw [apply] at h
    split at h
    · cases h
    · split at h
      · cases h
      · rename_i hvoid
        rw [not_not] at hvoid
        rw [hvoid] at hslot
        exact absurd hslot (by decide)
  | init hempty hnodup hcapped hnext =>
    rw [apply] at h
    split at h
    · cases h
    · split at h
      · cases h
      · rename_i hinit
        rw [not_not] at hinit
        exact absurd hslot (by rw [hinit]; exact Nat.lt_irrefl _)
  | batch hfolded hera hunit hnext => rw [hnext, hera]
  | single hnominate hfolded hera hnext => rw [hnext, hera]

namespace EraTable

theorem extend_of_apply {table : EraTable} {op : SystemOperation} {slot : Nat}
    {config : Configuration} (h : table.current.config.apply op slot = .ok config) :
    ∃ extended, table.extend op slot = .ok extended ∧ extended.current.config = config ∧
      extended.current.era = config.era := by
  unfold extend
  rw [h]
  exact ⟨_, rfl, rfl, rfl⟩

theorem Sound.total_pos {table : EraTable} {frontier : Nat} (h : table.Sound frontier) :
    0 < table.current.config.total := by
  rcases h.reachable.total_pos with ⟨hera, -⟩ | hpos
  · obtain ⟨record, hmem⟩ := List.exists_mem_of_ne_nil _ h.earlier
    have hprevious := (h.previous record hmem).1
    rw [← h.era, hera] at hprevious
    omega
  · exact hpos

/-- What one establishing operation makes of a sound table. -/
theorem Sound.extend_eq {table table' : EraTable} {op : SystemOperation} {frontier slot : Nat}
    (h : table.Sound frontier) (hslot : frontier < slot) (hextend : table.extend op slot = .ok table') :
    ∃ config, table.current.config.apply op slot = .ok config ∧
      config.era = table.current.era + 1 ∧ config.era < u32Bound ∧
      table' = { earlier := [table.current]
                 current := { era := config.era, config := config, total := config.total
                              establishedBy := slot, establishingOperation := op
                              pivot := none } } := by
  obtain ⟨config, hconfig, hextend⟩ := bind_eq_ok.mp hextend
  have hgenesis := h.genesis
  obtain ⟨hbound, hera⟩ := Era.next_eq_some.mp (Configuration.apply_era hconfig (by omega))
  rw [h.era] at hbound hera
  refine ⟨config, hconfig, hera, by omega, ?_⟩
  rw [← pure_eq_ok.mp hextend]
  congr 1
  show List.dropWhile _ (table.earlier ++ [table.current]) = _
  rw [List.dropWhile_append_of_pos]
  · rw [List.dropWhile_cons_of_neg]
    simp [hera]
  · intro record hmem
    have := (h.previous record hmem).1
    simp only [decide_eq_true_eq]
    omega

theorem Sound.extend {table table' : EraTable} {op : SystemOperation} {frontier slot : Nat}
    (h : table.Sound frontier) (hslot : frontier < slot)
    (hextend : table.extend op slot = .ok table') : table'.Sound slot := by
  obtain ⟨config, hconfig, hera, -, rfl⟩ := h.extend_eq hslot hextend
  refine ⟨h.reachable.apply hconfig, rfl, Nat.le_refl _, List.cons_ne_nil _ _, fun record hmem => ?_, by
    have := h.genesis
    omega⟩
  rw [List.mem_singleton.mp hmem]
  exact ⟨hera.symm, h.established.trans hslot.le⟩

/-! ### Looking an era up -/

theorem record_current (table : EraTable) : table.record table.current.era = some table.current := by
  unfold record records
  rw [List.reverse_append, List.reverse_singleton, List.singleton_append, List.find?_cons]
  simp

/-- Only the current era and the one before it are on record. -/
theorem Sound.era_of_record {table : EraTable} {frontier era : Nat} {found : EraRecord}
    (h : table.Sound frontier) (hfound : table.record era = some found) :
    (era = table.current.era ∧ found = table.current) ∨
      (era + 1 = table.current.era ∧ found.establishedBy ≤ frontier) := by
  have hera : found.era = era := by simpa using List.find?_some hfound
  have hmem : found ∈ table.records := List.mem_reverse.mp (List.mem_of_find?_eq_some hfound)
  rcases List.mem_append.mp hmem with hmem | hmem
  · right
    rw [← hera]
    exact h.previous found hmem
  · left
    obtain rfl := List.mem_singleton.mp hmem
    exact ⟨hera.symm, rfl⟩

theorem Sound.record_previous {table : EraTable} {frontier era : Nat} (h : table.Sound frontier)
    (hera : era + 1 = table.current.era) :
    ∃ found, table.record era = some found ∧ found.establishedBy ≤ frontier := by
  have hsome : (table.record era).isSome := by
    obtain ⟨first, hmem⟩ := List.exists_mem_of_ne_nil _ h.earlier
    refine List.find?_isSome.mpr ⟨first, List.mem_reverse.mpr (List.mem_append_left _ hmem), ?_⟩
    have := (h.previous first hmem).1
    simp only [beq_iff_eq]
    omega
  obtain ⟨found, hfound⟩ := Option.isSome_iff_exists.mp hsome
  refine ⟨found, hfound, ?_⟩
  rcases h.era_of_record hfound with ⟨heq, -⟩ | ⟨-, hestablished⟩
  · omega
  · exact hestablished

/-- A walk of at most two eras up to the current one finds the record of each. -/
theorem Sound.grounded {table : EraTable} {frontier start count : Nat} (h : table.Sound frontier)
    (hend : start + count = table.current.era) (hcount : count ≤ 2)
    (hbound : table.current.era < u32Bound) : erasGrounded table frontier start count = true := by
  have hlast : ∀ start, start + 1 = table.current.era →
      erasGrounded table frontier start 1 = true := by
    intro start hstart
    unfold erasGrounded
    rw [Era.next_eq_some.mpr ⟨by omega, rfl⟩, hstart]
    simp only [record_current, erasGrounded, Bool.and_true, decide_eq_true_eq]
    exact h.established
  match count, hcount with
  | 0, _ => rfl
  | 1, _ => exact hlast start hend
  | 2, _ =>
    unfold erasGrounded
    obtain ⟨found, hfound, hestablished⟩ :=
      h.record_previous (show start + 1 + 1 = table.current.era by omega)
    rw [Era.next_eq_some.mpr ⟨by omega, rfl⟩]
    simp only [hfound, hlast (start + 1) (by omega), Bool.and_true, decide_eq_true_eq]
    exact hestablished

/-- A walk from further below misses the record of its first era. -/
theorem Sound.not_grounded {table : EraTable} {frontier start count : Nat}
    (h : table.Sound frontier) (hstart : start + 3 ≤ table.current.era) (hcount : count ≠ 0) :
    erasGrounded table frontier start count = false := by
  obtain ⟨count, rfl⟩ := Nat.exists_eq_succ_of_ne_zero hcount
  unfold erasGrounded
  cases hnext : Era.next start with
  | none => rfl
  | some next =>
    obtain ⟨-, rfl⟩ := Era.next_eq_some.mp hnext
    have hnone : table.record (start + 1) = none := by
      cases hfound : table.record (start + 1) with
      | none => rfl
      | some found =>
        rcases h.era_of_record hfound with ⟨heq, -⟩ | ⟨heq, -⟩
        · omega
        · omega
    simp only [hnone]

theorem sound_genesisTable {order : List Nat} {table : EraTable}
    (h : Replica.genesisTable order = .ok table) : table.Sound initSlot := by
  obtain ⟨first, hvoid, h⟩ := bind_eq_ok.mp h
  have hfirst : first =
      { earlier := [genesis.current]
        current := { era := 0, config := Configuration.void, total := 0, establishedBy := voidSlot
                     establishingOperation := .void, pivot := none } } := by
    cases hvoid
    rfl
  rw [hfirst] at h
  obtain ⟨config, hconfig, h⟩ := bind_eq_ok.mp h
  have hreachable : config.Reachable := Configuration.Reachable.void.apply hconfig
  cases Configuration.apply_established hconfig with
  | init hempty hnodup hcapped hnext =>
    subst hnext
    rw [← pure_eq_ok.mp h]
    refine ⟨hreachable, rfl, Nat.le_refl _, by simp [records], fun record hmem => ?_, Nat.le_refl _⟩
    have hmem' : record ∈ [genesis.current,
        { era := 0, config := Configuration.void, total := 0, establishedBy := voidSlot
          establishingOperation := .void, pivot := none }] := hmem
    simp only [List.mem_cons, List.not_mem_nil, or_false] at hmem'
    rcases hmem' with rfl | rfl
    · exact ⟨rfl, by decide⟩
    · exact ⟨rfl, by decide⟩
  | single hnominate hfolded hera hnext => cases hfolded

/-- **A commit fold keeps a table sound.** -/
theorem Sound.fold {read : Nat → Option LogEntry} {runFuel through rounds : Nat}
    {current : Ballot} {paced : Bool} {folding folded : Folding}
    (h : folding.table.Sound folding.covered)
    (hfold : foldSlotsThrough read runFuel current through paced rounds folding = .ok folded) :
    folded.table.Sound folded.covered := by
  refine foldSlotsThrough_induct (P := fun f => f.table.Sound f.covered) ?_ ?_
    (fun f hf _ _ => hf) h hfold
  · intro f entry id payload hf hlt hread hpayload
    exact hf.later (Nat.le_succ _)
  · intro f entry op extended ops last hf hlt hread hpayload hextend hspent
    rcases extendRun_cases hextend with ⟨hsingle, -, hlast⟩ | ⟨-, -, hbatch, -, hlast⟩
    · exact (hf.extend (Nat.lt_succ_self _) hsingle).later (by rw [hlast])
    · exact (hf.extend (Nat.lt_succ_self _) hbatch).later (by rw [hlast]; exact Nat.le_add_right _ _)

end EraTable

/-- The table of a record grew up to its committed frontier. -/
def ProgressData.Tabled (p : ProgressData) : Prop := p.config.Sound p.committed

namespace Replica

variable {J : Type} [Journal J]

theorem Advance.tabled {r : Replica J} {given : Given} {next : ProgressData}
    {mutation : JournalMutation} {applies : List Effect} (h : r.Advance given next mutation applies)
    (hr : r.progress.Tabled) : next.Tabled := by
  unfold ProgressData.Tabled at hr ⊢
  cases h with
  | still hcommitted _ hconfig happlies hrewrite =>
    rw [hcommitted, hconfig]
    exact hr
  | commit hfold hcommitted _ hconfig hseen happlies hrewrite =>
    obtain ⟨end_, hend, rfl⟩ := foldCommitted_ok hfold
    rw [hcommitted]
    have hfolding : (r.folding r.progress.committed).table.Sound
        (r.folding r.progress.committed).covered := hr
    exact (hfolding.fold hend).mark hconfig

/-- The published table and the one of a parked transition are sound. -/
structure Tabled (r : Replica J) : Prop where
  published : r.progress.Tabled
  parked : ∀ parked, r.parked = some parked → parked.candidate.Tabled

omit [Journal J] in
/-- What a confirmation plans is the parked record, or the published one but for a fault. -/
theorem planConfirmation_candidate {r : Replica J} {revision : Nat} {result : StabilityResult}
    {plan : PlannedTransition} (h : r.planConfirmation revision result = .ok plan) :
    (∃ parked, r.parked = some parked ∧ plan.candidate = parked.candidate ∧
        plan.journal = parked.journal ∧ plan.effects = parked.effects ∧
        plan.bookkeeping = parked.bookkeeping) ∨
      ((∃ fault, plan.candidate.toProgressData =
          { r.progress.toProgressData with
            revision := r.progress.revision + 1, fault := fault }) ∧
        plan.journal = .none ∧ plan.effects = [] ∧ plan.bookkeeping = {}) := by
  unfold planConfirmation at h
  split at h
  · cases h
  · rename_i parked hparked
    split at h
    · cases h
    · split at h
      · cases h
        exact .inl ⟨parked, hparked, rfl, rfl, rfl, rfl⟩
      · obtain ⟨candidate, hcandidate, h⟩ := bind_eq_ok.mp h
        cases pure_eq_ok.mp h
        exact .inr ⟨⟨_, identityCandidate_ok hcandidate⟩, rfl, rfl, rfl⟩
      · obtain ⟨candidate, hcandidate, h⟩ := bind_eq_ok.mp h
        cases pure_eq_ok.mp h
        exact .inr ⟨⟨_, (Progress.transition_data (asCandidate_eq_ok.mp hcandidate)).1⟩, rfl, rfl,
          rfl⟩

omit [Journal J] in
/-- A record that keeps the era window serves the table's current era or the one before. -/
theorem era_window {p : Progress} (h : p.toProgressData.Tabled) :
    p.current.era ≤ p.config.current.era ∧ p.config.current.era ≤ p.current.era + 1 := by
  have hera := p.eraDiscipline
  unfold ProgressData.EraDiscipline EraTable.eraOfSlot at hera
  rw [if_pos (h.established.trans p.committed_le_accepted)] at hera
  rcases hera with hera | hera
  · omega
  · have := (Era.next_eq_some.mp hera).2
    omega

/-- A confirmation is planned by the parked transition. -/
theorem plan_confirmed {r : Replica J} {input : TimedInput} {revision : Nat}
    {result : StabilityResult} (hevent : input.event = .stabilityConfirmation revision result)
    {plan : PlannedTransition} (h : r.plan input = .ok plan) :
    r.planConfirmation revision result = .ok plan := by
  unfold Replica.plan at h
  split at h
  · cases h
  · simp only [hevent] at h
    split at h
    · cases h
    · exact h

/-- What a message of a known sender is planned by: the handler of its body, but for the note that
the primary is alive. -/
theorem plan_peerBody {r : Replica J} {input : TimedInput} {sender : Nat} {message : Message}
    (hevent : input.event = .peer sender message)
    (hforeign : r.foreignSender sender message = false) {plan : PlannedTransition}
    (hplan : r.plan input = .ok plan) :
    ∃ handled, r.planBody sender message input.time input.event.kind = .ok handled ∧
      (plan = handled ∨ plan = handled.withActivity input.time) := by
  unfold Replica.plan at hplan
  split at hplan
  · cases hplan
  · simp only at hplan
    split at hplan
    · cases hplan
    · rw [hevent] at hplan
      obtain ⟨-, hpeer⟩ := refuseIfParked_ok hplan
      unfold planPeer at hpeer
      rw [hforeign, if_neg Bool.false_ne_true] at hpeer
      obtain ⟨handled, hhandled, hpeer⟩ := bind_eq_ok.mp hpeer
      refine ⟨handled, hevent ▸ hhandled, ?_⟩
      split at hpeer
      · exact .inr (pure_eq_ok.mp hpeer).symm
      · exact .inl (pure_eq_ok.mp hpeer).symm

/-- What a plan comes from: a fresh input, or the confirmation of a parked transition. -/
theorem plan_source {r : Replica J} {input : TimedInput} {plan : PlannedTransition}
    (h : r.plan input = .ok plan) :
    r.Drafted (r.givenOf input) plan ∨ ∃ revision result,
      r.planConfirmation revision result = .ok plan := by
  by_cases hfresh : ∀ revision result, input.event ≠ .stabilityConfirmation revision result
  · exact .inl (plan_drafted hfresh h)
  · push Not at hfresh
    obtain ⟨revision, result, hevent⟩ := hfresh
    exact .inr ⟨revision, result, plan_confirmed hevent h⟩

theorem Tabled.plan {r : Replica J} (hr : r.Tabled) {input : TimedInput}
    {plan : PlannedTransition} (h : r.plan input = .ok plan) : plan.candidate.Tabled := by
  rcases plan_source h with hdrafted | ⟨revision, result, hconfirmed⟩
  · exact hdrafted.advance.tabled hr.published
  · rcases planConfirmation_candidate hconfirmed with
      ⟨parked, hparked, hcandidate, -⟩ | ⟨⟨fault, hdata⟩, -⟩
    · rw [hcandidate]
      exact hr.parked parked hparked
    · unfold ProgressData.Tabled
      rw [hdata]
      exact hr.published

omit [Journal J] in
theorem Tabled.faultNode {r : Replica J} (hr : r.Tabled) (fault : Fault) :
    (r.faultNode fault).Tabled := by
  rcases faultNode_cases r fault with heq | ⟨progress, heq, hdata⟩
  · rw [heq]
    exact hr
  · rw [heq]
    refine ⟨?_, hr.parked⟩
    unfold ProgressData.Tabled
    rw [hdata]
    exact hr.published

theorem Tabled.step {r : Replica J} (hr : r.Tabled) (input : TimedInput) :
    (r.step input).1.Tabled := by
  have hunparked : ({ r with parked := none } : Replica J).Tabled :=
    ⟨hr.published, fun _ hnone => by cases hnone⟩
  have houtcome := step_outcome r input
  generalize r.step input = out at houtcome
  cases houtcome with
  | refused => exact hr
  | faulted fault => exact hr.faultNode fault
  | diverged plan hplan hlegal => exact hunparked.faultNode _
  | parked plan hplan hfresh hstability hnone =>
    refine ⟨hr.published, fun parked hparked => ?_⟩
    cases hparked
    exact hr.plan hplan
  | published plan journal hplan hbase hfault hlegal hjournal =>
    exact ⟨hr.plan hplan, fun _ hnone => by cases hnone⟩

theorem provision_data {own : Nat} {order : List Nat} {strategy : QuorumStrategy} {journal : J}
    {stability : Stability} {knobs : ViewChangeKnobs} {r : Replica J}
    (h : provision own order strategy journal stability knobs = .ok r) :
    ∃ table journal' progress, genesisTable order = .ok table ∧
      Journal.accepted journal = none ∧
      Journal.installSuffix journal voidSlot (genesisEntries order table.current.era) =
        .ok journal' ∧
      progress.toProgressData =
        { current := { era := table.current.era, view := View.initial }
          retained := { era := table.current.era, view := View.initial }
          status := .joining, accepted := initSlot, committed := initSlot, applied := initSlot
          checkpoint := Slot.none, revision := 0, config := table, fault := none } ∧
      r = assemble own strategy journal' stability knobs progress := by
  unfold provision at h
  split at h
  · cases h
  · rename_i hempty
    split at h
    · cases h
    · rename_i table htable
      split at h
      · cases h
      · split at h
        · cases h
        · simp only at h
          split at h
          · cases h
          · rename_i journal' hjournal
            split at h
            · cases h
            · rename_i progress hprogress
              cases h
              exact ⟨table, journal', progress, htable,
                Option.not_isSome_iff_eq_none.mp hempty, hjournal,
                Progress.reconstitute_data hprogress, rfl⟩

theorem reopenFenced_data {own : Nat} {strategy : QuorumStrategy} {journal : J}
    {persisted : ProgressData} {stability : Stability} {knobs : ViewChangeKnobs} {r : Replica J}
    (h : reopenFenced own strategy journal persisted stability knobs = .ok r) :
    ∃ progress, progress.toProgressData = { persisted with status := .restarting } ∧
      r = assemble own strategy journal stability knobs progress := by
  unfold reopenFenced at h
  split at h
  · cases h
  · simp only at h
    split at h
    · cases h
    · split at h
      · cases h
      · rename_i progress hprogress
        cases h
        exact ⟨progress, Progress.reconstitute_data hprogress, rfl⟩

/-- **The tables of reachable replicas are sound.** -/
theorem Reached.tabled {r : Replica J} (h : r.Reached) : r.Tabled := by
  induction h with
  | provision h =>
    obtain ⟨table, journal, progress, htable, -, -, hdata, rfl⟩ := provision_data h
    refine ⟨?_, fun _ hnone => by cases hnone⟩
    unfold ProgressData.Tabled
    rw [show (assemble _ _ journal _ _ progress).progress = progress from rfl, hdata]
    exact EraTable.sound_genesisTable htable
  | step hr input ih => exact ih.step input
  | reclaim hr h ih => exact ⟨ih.published, ih.parked⟩
  | reopen hr h ih =>
    obtain ⟨progress, hdata, rfl⟩ := reopenFenced_data h
    refine ⟨?_, fun _ hnone => by cases hnone⟩
    unfold ProgressData.Tabled
    rw [show (assemble _ _ _ _ _ progress).progress = progress from rfl, hdata]
    exact ih.published
  | witnesses hr witnesses ih => exact ⟨ih.published, ih.parked⟩

end Replica

end UvrrCore
