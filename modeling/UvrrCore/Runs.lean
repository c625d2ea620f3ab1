import UvrrCore.Folding
import UvrrCore.Logs

/-!
# The runs of a committed range

A commit extends the era table once for each run of system entries in its range: adjacent entries
of one era, taken as one batch or, where the table refuses the batch, the first of them alone.
`Runs` says that a table came about this way from a list of entries, and `foldSlotsThrough_runs`
that the fold of a commit does it.
-/

namespace UvrrCore

/-! ### Runs of entries -/

/-- The operation a run folds as: its own, or the batch of several. -/
def runOperation (op : SystemOperation) (follow : List SystemOperation) : SystemOperation :=
  if follow.isEmpty then op else .batch (op :: follow)

/-- **One extension of the table** by a run: system entries of one era at adjacent slots. -/
inductive Extends (table : EraTable) : List LogEntry → EraTable → Prop
  | run {first : LogEntry} {rest : List LogEntry} {op : SystemOperation}
      {follow : List SystemOperation} {extended : EraTable} (hpayload : first.payload = .system op)
      (hslots : ContiguousFrom (first.slot + 1) rest)
      (hera : ∀ entry ∈ rest, entry.era = first.era)
      (hops : rest.map LogEntry.payload = follow.map .system)
      (hextend : table.extend (runOperation op follow) first.slot = .ok extended) :
      Extends table (first :: rest) extended

/-- **The table behind the entries of a range**: every run of system entries extended it, in
order. -/
inductive Runs (table : EraTable) : List LogEntry → EraTable → Prop
  | nil : Runs table [] table
  | operation {entries : List LogEntry} {entry : LogEntry} {grown : EraTable}
      {id : OperationId} {payload : List UInt8} (h : Runs table entries grown)
      (hpayload : entry.payload = .operation id payload) :
      Runs table (entries ++ [entry]) grown
  | run {entries run : List LogEntry} {grown extended : EraTable}
      (h : Runs table entries grown) (hrun : Extends grown run extended) :
      Runs table (entries ++ run) extended

/-! ### Ranges of a log -/

/-- The entries of a log at the slots behind `start` up to `through`. -/
def logRange (log : List LogEntry) (start through : Nat) : List LogEntry :=
  (log.take through).drop start

theorem logRange_self (log : List LogEntry) (slot : Nat) : logRange log slot slot = [] :=
  List.drop_eq_nil_of_le (List.length_take_le _ _)

theorem logRange_append {log : List LogEntry} {start middle through : Nat} (hlow : start ≤ middle)
    (hhigh : middle ≤ through) :
    logRange log start through = logRange log start middle ++ logRange log middle through := by
  unfold logRange
  rw [← List.take_append_drop (middle - start) ((log.take through).drop start), List.drop_drop,
    List.take_drop, List.take_take, Nat.add_sub_cancel' hlow, Nat.min_eq_left hhigh]

theorem logRange_succ {log : List LogEntry} {slot : Nat} {entry : LogEntry}
    (h : logAt log (slot + 1) = some entry) : logRange log slot (slot + 1) = [entry] := by
  have hget : log[slot]? = some entry := h
  unfold logRange
  rw [List.take_add_one, hget, Option.toList_some]
  have hlt := (List.getElem?_eq_some_iff.mp hget).1
  rw [List.drop_append_of_le_length (by rw [List.length_take]; omega),
    List.drop_eq_nil_of_le (List.length_take_le _ _), List.nil_append]

theorem logRange_getElem? {log : List LogEntry} {start through i : Nat}
    (hlt : start + i < through) : (logRange log start through)[i]? = logAt log (start + i + 1) := by
  unfold logRange
  rw [List.getElem?_drop, List.getElem?_take_of_lt hlt]
  rfl

/-- Entries that have their positions for slots are a run. -/
theorem contiguousFrom_of_slots {start : Nat} {entries : List LogEntry}
    (h : ∀ i entry, entries[i]? = some entry → entry.slot = start + i) :
    ContiguousFrom start entries := by
  induction entries generalizing start with
  | nil => trivial
  | cons first rest ih =>
    refine ⟨h 0 first rfl, ih fun i entry hentry => ?_⟩
    rw [h (i + 1) entry hentry]
    omega

/-! ### The runs of a fold -/

section Fold

variable {read : Nat → Option LogEntry} {runFuel through : Nat} {current : Ballot} {paced : Bool}

theorem runAfter_getElem? {era fuel slot i : Nat} {op : SystemOperation}
    (h : (runAfter read era fuel slot)[i]? = some op) :
    ∃ entry, read (slot + 1 + i) = some entry ∧ entry.era = era ∧ entry.payload = .system op := by
  induction fuel generalizing slot i with
  | zero => cases h
  | succ fuel ih =>
    rw [runAfter] at h
    split at h
    · cases h
    · rename_i next hnext
      obtain ⟨-, rfl⟩ := Slot.next_eq_some.mp hnext
      split at h
      · cases h
      · rename_i entry hread
        split at h
        · cases h
        · rename_i hera
          split at h
          · cases h
          · rename_i op' hpayload
            cases i with
            | zero =>
              cases h
              exact ⟨entry, hread, not_not.mp hera, hpayload⟩
            | succ i =>
              obtain ⟨later, hlater, hrest⟩ := ih h
              exact ⟨later, by rw [← hlater]; congr 1; omega, hrest⟩

variable {log : List LogEntry}

/-- The entries a run is read from stand in the log behind its first slot. -/
theorem runAfter_range {era slot : Nat} {follow : List SystemOperation}
    (hfollow : runAfter read era runFuel slot = follow)
    (hreads : ∀ s held, slot < s → s ≤ slot + follow.length → read s = some held →
      logAt log s = some held ∧ held.slot = s) :
    (logRange log slot (slot + follow.length)).map LogEntry.payload = follow.map .system ∧
      ∀ i entry, (logRange log slot (slot + follow.length))[i]? = some entry →
        entry.slot = slot + 1 + i ∧ entry.era = era := by
  have hrest : ∀ i op, follow[i]? = some op → ∃ entry,
      (logRange log slot (slot + follow.length))[i]? = some entry ∧ entry.slot = slot + 1 + i ∧
        entry.era = era ∧ entry.payload = .system op := by
    intro i op hop
    have hlt := (List.getElem?_eq_some_iff.mp hop).1
    obtain ⟨entry, hentry, hera, hpayload⟩ := runAfter_getElem? (hfollow.symm ▸ hop)
    obtain ⟨hheld, hat⟩ := hreads _ entry (by omega) (by omega) hentry
    refine ⟨entry, ?_, hat, hera, hpayload⟩
    rw [logRange_getElem? (by omega), ← hheld]
    congr 1
    omega
  have hlength : (logRange log slot (slot + follow.length)).length ≤ follow.length := by
    unfold logRange
    rw [List.length_drop, List.length_take]
    omega
  generalize logRange log slot (slot + follow.length) = rest at hrest hlength
  refine ⟨List.ext_getElem? fun i => ?_, fun i entry hentry => ?_⟩
  · rw [List.getElem?_map, List.getElem?_map]
    cases hop : follow[i]? with
    | none =>
      have hge := List.getElem?_eq_none_iff.mp hop
      rw [List.getElem?_eq_none (by omega)]
      rfl
    | some op =>
      obtain ⟨entry, hentry, -, -, hpayload⟩ := hrest i op hop
      rw [hentry, Option.map_some, hpayload]
      rfl
  · have hlt := (List.getElem?_eq_some_iff.mp hentry).1
    obtain ⟨same, hsome, hat, hera, -⟩ :=
      hrest i follow[i] (List.getElem?_eq_getElem (by omega))
    rw [hentry] at hsome
    cases hsome
    exact ⟨hat, hera⟩

/-- What a run extends the table by, in the log it is read from. -/
theorem extendRun_extends {table extended : EraTable} {entry : LogEntry} {op : SystemOperation}
    {ops : List SystemOperation} {slot last : Nat}
    (hreads : ∀ s held, slot < s → s ≤ last → read s = some held →
      logAt log s = some held ∧ held.slot = s)
    (hread : read (slot + 1) = some entry) (hpayload : entry.payload = .system op) (hle : slot < last)
    (h : extendRun table op (runAfter read entry.era runFuel (slot + 1)) (slot + 1) through =
      .ok (extended, ops, last)) :
    Extends table (logRange log slot last) extended := by
  obtain ⟨hentry, hslot⟩ := hreads (slot + 1) entry (Nat.lt_succ_self _) hle hread
  rw [logRange_append (Nat.le_add_right slot 1) hle, logRange_succ hentry]
  rw [← hslot] at h ⊢
  generalize hfollow : runAfter read entry.era runFuel entry.slot = follow at h
  rcases extendRun_cases h with ⟨hsingle, -, rfl⟩ | ⟨hsome, -, hbatch, -, rfl⟩
  · have hone : table.extend (runOperation op []) entry.slot = .ok extended := hsingle
    rw [logRange_self]
    exact .run hpayload trivial (fun _ hmem => nomatch hmem) rfl hone
  · obtain ⟨hops, hback⟩ := runAfter_range hfollow
      fun s held hlow hhigh => hreads s held (by omega) hhigh
    generalize logRange log entry.slot (entry.slot + follow.length) = rest at hops hback
    refine .run hpayload
      (contiguousFrom_of_slots fun i later hlater => (hback i later hlater).1)
      (fun other hmem => ?_) hops ?_
    · obtain ⟨i, hi⟩ := List.getElem?_of_mem hmem
      exact (hback i other hi).2
    · unfold runOperation
      rw [if_neg (by simpa using hsome)]
      exact hbatch

/-- **A fold takes the runs of the range it covers.** -/
theorem foldSlotsThrough_runs {start rounds : Nat} {table : EraTable} {folding folded : Folding}
    (h : foldSlotsThrough read runFuel current through paced rounds folding = .ok folded)
    (hreads : ∀ s held, start < s → s ≤ folded.covered → read s = some held →
      logAt log s = some held ∧ held.slot = s)
    (hstart : folding.covered = start) (htable : folding.table = table) :
    Runs table (logRange log start folded.covered) folded.table := by
  refine (foldSlotsThrough_induct (P := fun f => start ≤ f.covered ∧ (f.covered ≤ folded.covered →
    Runs table (logRange log start f.covered) f.table)) ?_ ?_ (fun f hf _ _ => hf)
    ⟨Nat.le_of_eq hstart.symm, fun _ => ?_⟩ h).2 (Nat.le_refl _)
  · intro f entry id payload ⟨hle, hruns⟩ hlt hread hpayload
    refine ⟨Nat.le_succ_of_le hle, fun hwithin => ?_⟩
    obtain ⟨hentry, -⟩ := hreads _ entry (Nat.lt_succ_of_le hle) hwithin hread
    show Runs table (logRange log start (f.covered + 1)) f.table
    rw [logRange_append hle (Nat.le_succ _), logRange_succ hentry]
    exact (hruns (by have : f.covered + 1 ≤ folded.covered := hwithin; omega)).operation hpayload
  · intro f entry op extended ops last ⟨hle, hruns⟩ hlt hread hpayload hextend _
    have hlast := (extendRun_last hextend hlt).1
    refine ⟨by show start ≤ last; omega, fun hwithin => ?_⟩
    have hwithin' : last ≤ folded.covered := hwithin
    show Runs table (logRange log start last) extended
    rw [logRange_append hle (by omega)]
    exact (hruns (by omega)).run (extendRun_extends
      (fun s held hlow hhigh => hreads s held (by omega) (by omega)) hread hpayload hlast hextend)
  · rw [hstart, logRange_self, htable]
    exact .nil

end Fold

end UvrrCore
