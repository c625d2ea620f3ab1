import UvrrCore.Acknowledged

/-!
# Which entries establish eras

The record of an era names the slot that established it. Behind the genesis that slot holds a
committed system entry, and what the journal holds there was written by some transition.

## Main results

* `Chronicle.established`: every era behind the genesis is established by a committed entry.
* `step_get`: what a step journals, it planned to write.
* `ProposesAt.publishes`: what publishing the proposal of an establishing operation does.
-/

namespace UvrrCore

/-! ### Where the records of a table come from -/

theorem EraTable.extend_records {table extended : EraTable} {op : SystemOperation} {slot : Nat}
    (h : table.extend op slot = .ok extended) {record : EraRecord}
    (hmem : record ∈ extended.records) : record ∈ table.records ∨ record.establishedBy = slot := by
  obtain ⟨config, -, h⟩ := bind_eq_ok.mp h
  rw [← pure_eq_ok.mp h] at hmem
  rcases List.mem_append.mp hmem with hmem | hmem
  · exact .inl ((List.dropWhile_sublist _).mem hmem)
  · rw [List.mem_singleton.mp hmem]
    exact .inr rfl

theorem EraTable.UpToPivot.records {table marked : EraTable} (h : table.UpToPivot marked)
    {record : EraRecord} (hmem : record ∈ marked.records) :
    ∃ old ∈ table.records, old.establishedBy = record.establishedBy := by
  rcases h with rfl | ⟨pivot, hmark⟩
  · exact ⟨record, hmem, rfl⟩
  · unfold withTransitionPivot at hmark
    rw [if_pos rfl] at hmark
    cases hmark
    rcases List.mem_append.mp hmem with hmem | hmem
    · exact ⟨record, List.mem_append_left _ hmem, rfl⟩
    · rw [List.mem_singleton.mp hmem]
      exact ⟨table.current, List.mem_append_right _ (List.mem_singleton.mpr rfl), rfl⟩

/-- A slot at which a list holds a system entry. -/
def EstablishedIn (entries : List LogEntry) (slot : Nat) : Prop :=
  ∃ entry ∈ entries, entry.slot = slot ∧ entry.payload.isSystem = true

theorem EstablishedIn.append_left {entries : List LogEntry} {slot : Nat}
    (h : EstablishedIn entries slot) (later : List LogEntry) :
    EstablishedIn (entries ++ later) slot := by
  obtain ⟨entry, hmem, hentry⟩ := h
  exact ⟨entry, List.mem_append_left _ hmem, hentry⟩

/-- The runs of a range establish eras at slots of its system entries. -/
theorem Runs.established {table grown : EraTable} {entries : List LogEntry}
    (h : Runs table entries grown) {record : EraRecord} (hmem : record ∈ grown.records) :
    record ∈ table.records ∨ EstablishedIn entries record.establishedBy := by
  induction h with
  | nil => exact .inl hmem
  | operation h hpayload ih => exact (ih hmem).imp id fun hold => hold.append_left _
  | run h hrun ih =>
    obtain ⟨hpayload, hslots, hera, hops, hextend⟩ := hrun
    rename_i first rest op follow
    rcases EraTable.extend_records hextend hmem with hold | hnew
    · exact (ih hold).imp id fun hold => hold.append_left _
    · exact .inr ⟨first, List.mem_append_right _ (List.mem_cons_self ..), hnew.symm, by
        rw [hpayload]
        rfl⟩

/-- **Every era behind the genesis is established by a committed entry.** -/
theorem Replica.Chronicle.established {ranges : List (List LogEntry)} {table : EraTable}
    (h : Chronicle ranges table) {record : EraRecord} (hmem : record ∈ table.records) :
    record.establishedBy ≤ initSlot ∨ EstablishedIn ranges.flatten record.establishedBy := by
  induction h generalizing record with
  | genesis h =>
    obtain ⟨first, hfirst, hsecond⟩ := bind_eq_ok.mp h
    rcases EraTable.extend_records hsecond hmem with hmem | heq
    · rcases EraTable.extend_records hfirst hmem with hmem | heq
      · rw [List.mem_singleton.mp hmem]
        exact .inl (Nat.zero_le _)
      · exact .inl (heq.trans_le (by decide))
    · exact .inl heq.le
  | commit h hruns hmarked ih =>
    obtain ⟨old, hold, heq⟩ := hmarked.records hmem
    rw [← heq, List.flatten_append, List.flatten_singleton]
    rcases hruns.established hold with hbefore | ⟨entry, hentry, hsystem⟩
    · exact (ih hbefore).imp id fun hbefore => hbefore.append_left _
    · exact .inr ⟨entry, List.mem_append_right _ hentry, hsystem⟩

/-! ### What a mutation writes -/

def JournalMutation.written : JournalMutation → List LogEntry
  | .none => []
  | .accept entries => entries
  | .installSuffix _ suffix => suffix

namespace Replica

section Written

variable {J : Type} [Journal J] [LawfulJournal J] {r : Replica J}

/-- What a mutated journal holds was written or held before. -/
theorem mutateJournal_get {journal mutated : J} {mutation : JournalMutation} {frontier slot : Nat}
    {entry : LogEntry} (hfrontier : Journal.accepted journal = some frontier)
    (h : mutateJournal journal mutation = .ok mutated)
    (hget : Journal.get mutated slot = some entry) :
    Journal.get journal slot = some entry ∨ entry ∈ mutation.written := by
  have hpick : ∀ {entries : List LogEntry} {p : Prop} [Decidable p],
      (if p then Journal.get journal slot else entryAt entries slot) = some entry →
        Journal.get journal slot = some entry ∨ entry ∈ entries := by
    intro entries p _ hread
    split at hread
    · exact .inl hread
    · exact .inr (List.mem_of_find?_eq_some hread)
  cases mutation with
  | none =>
    cases h
    exact .inl hget
  | accept entries =>
    cases entries with
    | nil =>
      have hsame : Journal.accept journal [] = .ok mutated := h
      rw [LawfulJournal.accept_nil] at hsame
      cases hsame
      exact .inl hget
    | cons first rest =>
      obtain ⟨-, -, -, hreads⟩ := LawfulJournal.accept_ok hfrontier h
      rw [hreads] at hget
      exact hpick hget
  | installSuffix start suffix =>
    obtain ⟨-, -, -, -, -, hreads⟩ := LawfulJournal.installSuffix_ok hfrontier h
    rw [hreads] at hget
    exact hpick hget

/-- **What a step journals.** -/
theorem step_get {input : TimedInput} {frontier slot : Nat} {entry : LogEntry}
    (hfrontier : Journal.accepted r.journal = some frontier)
    (hget : Journal.get (r.step input).1.journal slot = some entry) :
    Journal.get r.journal slot = some entry ∨
      ∃ plan, r.plan input = .ok plan ∧ entry ∈ plan.journal.written := by
  have houtcome := step_outcome r input
  generalize r.step input = out at houtcome hget
  cases houtcome with
  | refused => exact .inl hget
  | faulted fault =>
    rw [faultNode_journal] at hget
    exact .inl hget
  | diverged plan hplan hlegal =>
    rw [faultNode_journal] at hget
    exact .inl hget
  | parked plan hplan hcompletion hstability hnone => exact .inl hget
  | published plan journal hplan hbase hfault hlegal hjournal =>
    exact (mutateJournal_get hfrontier hjournal hget).imp id fun hwritten =>
      ⟨plan, hplan, hwritten⟩

end Written

/-! ### What a proposal does -/

variable {J : Type} [Journal J] {r : Replica J} {plan : PlannedTransition}
  {operation : SystemOperation} {pivot : Option Pivot}

/-- The plan of an establishing proposal: one entry at the next slot, announced and nothing more,
by a node that serves in the era established last. -/
structure ProposesAt (r : Replica J) (operation : SystemOperation)
    (plan : PlannedTransition) : Prop where
  base : plan.base = r.progress.revision
  fault : plan.fault = none
  room : r.progress.revision + 1 < u64Bound
  written : ∃ entry, plan.journal = .accept [entry] ∧ entry.slot = r.progress.accepted + 1 ∧
    entry.payload = .system operation
  accepted : plan.candidate.accepted = r.progress.accepted + 1
  committed : plan.candidate.committed = r.progress.committed
  sends : ∀ effect ∈ plan.effects, ∃ recipient era message, effect = .send recipient era message
  era : r.progress.config.current.era = r.progress.current.era

theorem planReconfigure_proposes (h : r.planReconfigure operation pivot = .ok plan) :
    r.ProposesAt operation plan := by
  obtain ⟨record, -, h⟩ := bind_eq_ok.mp h
  obtain ⟨slot, hslot, h⟩ := bind_eq_ok.mp h
  obtain ⟨table, hgates, h⟩ := bind_eq_ok.mp h
  obtain ⟨⟨recipients, planned⟩, -, h⟩ := bind_eq_ok.mp h
  obtain ⟨candidate, hcandidate, h⟩ := bind_eq_ok.mp h
  cases pure_eq_ok.mp h
  have hdata := candidateWith_ok hcandidate
  obtain rfl := nextFreeSlot_ok hslot
  refine ⟨rfl, rfl, nextRecord_room hcandidate, ⟨_, rfl, rfl, rfl⟩, ?_, ?_, ?_,
    reconfigureGates_era hgates⟩
  · show candidate.accepted = _
    rw [hdata]
    rfl
  · show candidate.committed = _
    rw [hdata]
    rfl
  · intro effect hmem
    obtain ⟨recipient, -, rfl⟩ := mem_sendAll hmem
    exact ⟨recipient, _, _, rfl⟩

theorem plan_reconfigure_eq {input : TimedInput}
    (hevent : input.event = .reconfigure operation pivot) (h : r.plan input = .ok plan) :
    r.planReconfigure operation pivot = .ok plan := by
  unfold Replica.plan at h
  split at h
  · cases h
  · simp only at h
    split at h
    · cases h
    · rw [hevent] at h
      exact (refuseIfParked_ok h).2

omit [Journal J] in
/-- A fault is put on record while there is a revision for it. -/
theorem faultNode_isSome (fault : Fault) (hfault : r.progress.fault = none)
    (hroom : r.progress.revision + 1 < u64Bound) :
    (r.faultNode fault).progress.fault.isSome = true := by
  have hchecked : ({ r.progress.toProgressData with
      fault := some fault, revision := r.progress.revision + 1 } : ProgressData).check = .ok () :=
    r.progress.checked
  obtain ⟨progress, hprogress, hdata⟩ := Progress.reconstitute_of_check hchecked
  have htaken : r.progress.withFault fault = .ok progress := by
    unfold Progress.withFault Progress.transition
    rw [hfault]
    simp only
    rw [if_pos hroom]
    exact hprogress
  unfold faultNode
  rw [htaken]
  show progress.fault.isSome = true
  rw [hdata]
  rfl

/-- **What publishing a proposal does** in the volatile mode: the entry is journaled, or the node
faults. -/
theorem ProposesAt.publishes (h : r.ProposesAt operation plan)
    (hvolatile : r.stability = .volatile) (hfault : r.progress.fault = none) :
    (∃ journal, mutateJournal r.journal plan.journal = .ok journal ∧
      r.publish plan = (({ r with parked := none } : Replica J).installed plan journal,
        .ok (.published plan.candidate.revision plan.effects))) ∨
    ∃ fault refusal, r.publish plan =
        (({ r with parked := none } : Replica J).faultNode fault, .error refusal) ∨
      r.publish plan = (r.faultNode fault, .error refusal) := by
  unfold publish install
  rw [hfault]
  simp only
  rw [if_neg (not_not.mpr h.base), h.fault]
  simp only
  cases hlegal : legal r.progress.toProgressData plan.candidate.toProgressData plan.kind with
  | some fault => exact .inr ⟨fault, _, .inr rfl⟩
  | none =>
    simp only
    rw [if_pos (.inr hvolatile)]
    cases hjournal : mutateJournal r.journal plan.journal with
    | error error => exact .inr ⟨_, _, .inl rfl⟩
    | ok journal => exact .inl ⟨journal, rfl, rfl⟩

end Replica

end UvrrCore
