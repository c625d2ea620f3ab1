import UvrrCore.Planner

/-!
# Era tables over whole histories

An era table grows from the genesis record by operations at slots. However long the history, it
holds the records of the current era and of the one before it and no others, and its current
configuration is the fold of the whole history. A snapshot in between loses nothing: the rest of
the history leads from it to the same configuration.

Only era 0 can have more than one record: the genesis one and that of each `Void` behind it.

## Main results

* `EraTable.Grown.extend`: what one accepted operation keeps.
* `EraTable.consistent`: what holds of the table after any accepted history.
-/

namespace UvrrCore

open UvrrCore.Configuration

/-- An operation and the slot it stands at. -/
abbrev SlottedOperation := SystemOperation × Nat

/-- The fold of a history, each operation at its slot. -/
def Configuration.applyHistory (c : Configuration) :
    List SlottedOperation → Except ConfigError Configuration
  | [] => .ok c
  | (op, slot) :: rest => do
    let next ← c.apply op slot
    next.applyHistory rest

namespace EraTable

/-- The table a history leads to, as long as no operation is refused. -/
def extendEach (table : EraTable) : List SlottedOperation → Except ConfigError EraTable
  | [] => .ok table
  | (op, slot) :: rest => do
    let next ← table.extend op slot
    next.extendEach rest

/-- The extension as the source's body runs it on the table it is asked of: the records are cloned,
and nothing is assigned to that table. -/
def extendInPlace (op : SystemOperation) (slot : Nat) :
    ExceptT ConfigError (StateM EraTable) EraTable := do
  let table ← get
  let config ← liftExcept (table.current.config.apply op slot)
  let cutoff := config.era - 1
  let records := table.records
  return {
    earlier := records.dropWhile fun record => decide (record.era < cutoff)
    current :=
      { era := config.era, config := config, total := config.total, establishedBy := slot,
        establishingOperation := op, pivot := none } }

/-- **An extension leaves the table it is asked of**, whether it is refused or not. -/
theorem extendInPlace_run (table : EraTable) (op : SystemOperation) (slot : Nat) :
    (extendInPlace op slot).run.run table = (table.extend op slot, table) := by
  have hget : ∀ f : EraTable → ExceptT ConfigError (StateM EraTable) EraTable,
      (get >>= f).run.run table = (f table).run.run table := fun _ => rfl
  unfold extendInPlace extend
  rw [hget]
  cases table.current.config.apply op slot with
  | error error => rfl
  | ok config => rfl

end EraTable

/-! ### Histories -/

theorem Configuration.applyHistory_append {c : Configuration} {first second : List SlottedOperation} :
    c.applyHistory (first ++ second) =
      c.applyHistory first >>= fun next => next.applyHistory second := by
  induction first generalizing c with
  | nil => rfl
  | cons step rest ih =>
    obtain ⟨op, slot⟩ := step
    rw [List.cons_append, applyHistory, applyHistory]
    cases c.apply op slot with
    | error error => rfl
    | ok next => exact ih

theorem Configuration.Reachable.applyHistory {c next : Configuration}
    {history : List SlottedOperation} (hc : c.Reachable) (h : c.applyHistory history = .ok next) :
    next.Reachable := by
  induction history generalizing c with
  | nil =>
    cases h
    exact hc
  | cons step rest ih =>
    obtain ⟨op, slot⟩ := step
    obtain ⟨between, hbetween, hrest⟩ := bind_eq_ok.mp h
    exact ih (hc.apply hbetween) hrest

/-- An accepted operation on a configuration of the fold is a genesis operation on the void one, or
establishes the next era. -/
theorem Configuration.Reachable.apply_era {c next : Configuration} {op : SystemOperation}
    {slot : Nat} (hc : c.Reachable) (h : c.apply op slot = .ok next) :
    (c.era = 0 ∧ next.era = 0) ∨ next.era = c.era + 1 := by
  have hempty : c.order = [] → c.era = 0 := fun hempty => by
    rcases hc.lawful with ⟨hera, -⟩ | ⟨-, hlive⟩
    · exact hera
    · exact absurd hempty hlive.voting.order_ne
  cases apply_established h with
  | void hvoid hnext => exact .inl ⟨hempty hvoid, by rw [hnext]; rfl⟩
  | init hvoid hnodup hcapped hnext => exact .inr (by rw [hnext, hempty hvoid])
  | batch hfolded hera hunit hnext => exact .inr (by rw [hnext]; exact (Era.next_eq_some.mp hera).2)
  | single hnominate hfolded hera hnext =>
    exact .inr (by rw [hnext]; exact (Era.next_eq_some.mp hera).2)

/-- Nothing is established at slot 0. -/
theorem Configuration.slot_pos_of_apply_void {next : Configuration} {op : SystemOperation}
    {slot : Nat} (h : void.apply op slot = .ok next) : 0 < slot := by
  by_contra hzero
  rw [Nat.not_lt, Nat.le_zero] at hzero
  subst hzero
  cases op with
  | batch ops => exact absurd rfl (apply_batch.mp h).2.2.1
  | _ => cases h

/-! ### The table a history leads to -/

namespace EraTable

theorem extendEach_append {table : EraTable} {first second : List SlottedOperation} :
    table.extendEach (first ++ second) =
      table.extendEach first >>= fun next => next.extendEach second := by
  induction first generalizing table with
  | nil => rfl
  | cons step rest ih =>
    obtain ⟨op, slot⟩ := step
    rw [List.cons_append, extendEach, extendEach]
    cases table.extend op slot with
    | error error => rfl
    | ok next => exact ih

/-- **What holds of the table a history leads to.** -/
structure Grown (history : List SlottedOperation) (table : EraTable) : Prop where
  folded : void.applyHistory history = .ok table.current.config
  era : table.current.config.era = table.current.era
  /-- Behind the genesis era there is a record of the era before and nothing older. -/
  previous : table.current.era ≠ 0 → table.earlier ≠ [] ∧
    ∀ record ∈ table.earlier, record.era + 1 = table.current.era
  initial : table.current.era = 0 → ∀ record ∈ table.earlier, record.era = 0
  single : 2 ≤ table.current.era → ∃ record, table.earlier = [record]
  established : table.current.establishedBy = (history.getLast?.map Prod.snd).getD Slot.none
  ascending : (history.map Prod.snd).Pairwise (· < ·) →
    (table.records.map EraRecord.establishedBy).Pairwise (· < ·)

theorem Grown.reachable {history : List SlottedOperation} {table : EraTable}
    (h : Grown history table) : table.current.config.Reachable :=
  Reachable.void.applyHistory h.folded

theorem grown_genesis : Grown [] genesis where
  folded := rfl
  era := rfl
  previous h := absurd rfl h
  initial _ _ hmem := absurd hmem List.not_mem_nil
  single h := absurd h (by decide)
  established := rfl
  ascending _ := List.pairwise_singleton _ _

/-- The slot of an operation accepted behind an ascending history lies past the current record. -/
theorem Grown.slot_lt {history : List SlottedOperation} {table : EraTable} {op : SystemOperation}
    {slot : Nat} {config : Configuration} (h : Grown history table)
    (hconfig : table.current.config.apply op slot = .ok config)
    (hslots : ((history ++ [(op, slot)]).map Prod.snd).Pairwise (· < ·)) :
    table.current.establishedBy < slot := by
  rw [h.established]
  rw [List.map_append, List.pairwise_append] at hslots
  cases hlast : history.getLast? with
  | none =>
    rw [List.getLast?_eq_none_iff] at hlast
    have hvoid := h.folded
    rw [hlast] at hvoid
    rw [← Except.ok.inj hvoid] at hconfig
    exact slot_pos_of_apply_void hconfig
  | some last =>
    exact hslots.2.2 last.2 (List.mem_map_of_mem (List.mem_of_getLast? hlast)) slot
      List.mem_cons_self

/-- The records an extension lets go of are those before the era of the old current one. -/
theorem Grown.retained {history : List SlottedOperation} {table : EraTable}
    (h : Grown history table) (era : Nat) (hera : (table.current.era = 0 ∧ era ≤ 1) ∨
      (table.current.era ≠ 0 ∧ era = table.current.era + 1)) :
    (table.records.dropWhile fun record => decide (record.era < era - 1)) =
      if table.current.era = 0 then table.records else [table.current] := by
  rcases hera with ⟨hzero, hle⟩ | ⟨hpos, rfl⟩
  · rw [if_pos hzero, show era - 1 = 0 by omega]
    cases hrecords : table.records with
    | nil => rfl
    | cons record rest => rw [List.dropWhile_cons_of_neg (by simp)]
  · rw [if_neg hpos]
    show List.dropWhile _ (table.earlier ++ [table.current]) = _
    rw [List.dropWhile_append_of_pos]
    · rw [List.dropWhile_cons_of_neg (by simp)]
    · intro record hmem
      have hbefore := (h.previous hpos).2 record hmem
      simp only [decide_eq_true_eq]
      omega

/-- Up to an ascending end, no record was established after the current one. -/
theorem Grown.established_le {history : List SlottedOperation} {table : EraTable}
    (h : Grown history table) (hslots : (history.map Prod.snd).Pairwise (· < ·))
    {record : EraRecord} (hmem : record ∈ table.records) :
    record.establishedBy ≤ table.current.establishedBy := by
  have hascending := h.ascending hslots
  rw [records, List.map_append, List.pairwise_append] at hascending
  rcases List.mem_append.mp hmem with hmem | hmem
  · exact (hascending.2.2 _ (List.mem_map_of_mem hmem) _ (List.mem_singleton.mpr rfl)).le
  · rw [List.mem_singleton.mp hmem]

/-- **What one accepted operation keeps.** -/
theorem Grown.extend {history : List SlottedOperation} {table table' : EraTable}
    {op : SystemOperation} {slot : Nat} (h : Grown history table)
    (hextend : table.extend op slot = .ok table') :
    Grown (history ++ [(op, slot)]) table' := by
  obtain ⟨config, hconfig, hextend⟩ := bind_eq_ok.mp hextend
  have hstep := h.reachable.apply_era hconfig
  rw [h.era] at hstep
  have hretained := h.retained config.era (by
    rcases hstep with ⟨hzero, hnext⟩ | hnext
    · exact .inl ⟨hzero, by omega⟩
    · by_cases hzero : table.current.era = 0
      · exact .inl ⟨hzero, by omega⟩
      · exact .inr ⟨hzero, hnext⟩)
  have htable := pure_eq_ok.mp hextend
  simp only [hretained] at htable
  have hzeros : table.current.era = 0 → ∀ record ∈ table.records, record.era = 0 := by
    intro hzero record hmem
    rcases List.mem_append.mp hmem with hmem | hmem
    · exact h.initial hzero record hmem
    · rw [List.mem_singleton.mp hmem]
      exact hzero
  subst htable
  refine ⟨?_, rfl, fun hpos => ?_, fun hzero record hmem => ?_, fun htwo => ?_, ?_, fun hslots => ?_⟩
  · rw [applyHistory_append, h.folded]
    show (table.current.config.apply op slot >>= fun next => next.applyHistory []) = _
    rw [hconfig]
    rfl
  · have hpos : config.era ≠ 0 := hpos
    by_cases hzero : table.current.era = 0
    · simp only [if_pos hzero]
      refine ⟨by simp [records], fun record hmem => ?_⟩
      rw [hzeros hzero record hmem]
      omega
    · simp only [if_neg hzero]
      refine ⟨List.cons_ne_nil _ _, fun record hmem => ?_⟩
      rw [List.mem_singleton.mp hmem]
      omega
  · have hzero : config.era = 0 := hzero
    have hcurrent : table.current.era = 0 := by omega
    simp only [if_pos hcurrent] at hmem
    exact hzeros hcurrent record hmem
  · have htwo : 2 ≤ config.era := htwo
    exact ⟨table.current, if_neg (by omega)⟩
  · rw [List.getLast?_concat]
    rfl
  · have hlt := h.slot_lt hconfig hslots
    rw [List.map_append, List.pairwise_append] at hslots
    have hsub : (if table.current.era = 0 then table.records else [table.current]).Sublist
        table.records := by
      split
      · exact List.Sublist.refl _
      · exact List.sublist_append_right _ _
    show (List.map _ (_ ++ [_])).Pairwise _
    rw [List.map_append, List.pairwise_append]
    refine ⟨(h.ascending hslots.1).sublist (hsub.map _), List.pairwise_singleton _ _,
      fun first hfirst last hlast => ?_⟩
    obtain ⟨record, hmem, rfl⟩ := List.mem_map.mp hfirst
    rw [List.mem_singleton.mp hlast]
    exact (h.established_le hslots.1 (hsub.subset hmem)).trans_lt hlt

theorem grown_of_extendEach {history : List SlottedOperation} {table : EraTable}
    (h : genesis.extendEach history = .ok table) : Grown history table := by
  induction history using List.reverseRecOn generalizing table with
  | nil =>
    cases h
    exact grown_genesis
  | append_singleton before step ih =>
    obtain ⟨op, slot⟩ := step
    rw [extendEach_append] at h
    obtain ⟨between, hbetween, h⟩ := bind_eq_ok.mp h
    obtain ⟨next, hnext, h⟩ := bind_eq_ok.mp h
    cases h
    exact (ih hbetween).extend hnext

/-- The eras on record are the current one and the one before it. -/
theorem Grown.eras {history : List SlottedOperation} {table : EraTable} (h : Grown history table)
    (era : Nat) : (∃ record ∈ table.records, record.era = era) ↔
      era = table.current.era ∨ era + 1 = table.current.era := by
  constructor
  · rintro ⟨record, hmem, rfl⟩
    rcases List.mem_append.mp hmem with hmem | hmem
    · by_cases hzero : table.current.era = 0
      · exact .inl ((h.initial hzero record hmem).trans hzero.symm)
      · exact .inr ((h.previous hzero).2 record hmem)
    · exact .inl (congrArg EraRecord.era (List.mem_singleton.mp hmem))
  · rintro (rfl | hbefore)
    · exact ⟨table.current, List.mem_append_right _ (List.mem_singleton.mpr rfl), rfl⟩
    · obtain ⟨hne, hprevious⟩ := h.previous (by omega)
      obtain ⟨record, hmem⟩ := List.exists_mem_of_ne_nil _ hne
      have hera := hprevious record hmem
      exact ⟨record, List.mem_append_left _ hmem, by omega⟩

/-- A snapshot within the history leads to the same end. -/
theorem Grown.replayed {before tail : List SlottedOperation} {table : EraTable}
    (h : Grown (before ++ tail) table) :
    ∃ start inflated, void.applyHistory before = .ok start ∧
      start.toSnapshot.inflate = .ok inflated ∧
      inflated.applyHistory tail = .ok table.current.config := by
  have hfolded := h.folded
  rw [applyHistory_append] at hfolded
  obtain ⟨start, hstart, hrest⟩ := bind_eq_ok.mp hfolded
  exact ⟨start, start, hstart,
    Snapshot.inflate_of_reachable (Reachable.void.applyHistory hstart), hrest⟩

/-- **Era tables are consistent**, over every history the table of genesis accepts. -/
theorem consistent {history : List SlottedOperation} {table : EraTable}
    (h : genesis.extendEach history = .ok table) :
    (∀ era, (∃ record ∈ table.records, record.era = era) ↔
      era = table.current.era ∨ era + 1 = table.current.era) ∧
    (2 ≤ table.current.era → ∃ record, table.records = [record, table.current]) ∧
    void.applyHistory history = .ok table.current.config ∧
    ((history.map Prod.snd).Pairwise (· < ·) →
      (table.records.map EraRecord.establishedBy).Pairwise (· < ·)) ∧
    (∀ op slot, (extendInPlace op slot).run.run table = (table.extend op slot, table)) ∧
    ∀ before tail, history = before ++ tail → ∃ start inflated,
      void.applyHistory before = .ok start ∧ start.toSnapshot.inflate = .ok inflated ∧
        inflated.applyHistory tail = .ok table.current.config := by
  have hgrown := grown_of_extendEach h
  refine ⟨hgrown.eras, fun htwo => ?_, hgrown.folded, hgrown.ascending,
    extendInPlace_run table, fun before tail hsplit => ?_⟩
  · obtain ⟨record, hrecord⟩ := hgrown.single htwo
    exact ⟨record, by rw [records, hrecord]; rfl⟩
  · subst hsplit
    exact hgrown.replayed

/-- Genesis, a batch and a single operation: a snapshot behind the genesis leads to the end. -/
theorem consistent_batch :
    ∃ table start inflated, genesis.extendEach
        [(.void, 1), (.init [1, 2], 2), (.batch [.join 3 2], 3), (.increment 3, 4)] = .ok table ∧
      void.applyHistory [(.void, 1), (.init [1, 2], 2)] = .ok start ∧
      start.toSnapshot.inflate = .ok inflated ∧
      inflated.applyHistory [(.batch [.join 3 2], 3), (.increment 3, 4)] =
        .ok table.current.config := by
  obtain ⟨table, htable⟩ : ∃ table, genesis.extendEach
      [(.void, 1), (.init [1, 2], 2), (.batch [.join 3 2], 3), (.increment 3, 4)] = .ok table :=
    ⟨_, rfl⟩
  obtain ⟨start, inflated, hreplayed⟩ := (consistent htable).2.2.2.2.2
    [(.void, 1), (.init [1, 2], 2)] [(.batch [.join 3 2], 3), (.increment 3, 4)] rfl
  exact ⟨table, start, inflated, htable, hreplayed⟩

end EraTable

end UvrrCore
