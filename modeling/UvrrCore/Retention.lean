import UvrrCore.InPlace

/-!
# What a log reports and installs

Two contracts of the segmented log. `retained` reports the bounds of what `get` reads, and
`installSuffix` puts a run of entries in at the cut.

The bounds are exact from the first entry on, through every reclaim and truncation. A log that
never held an entry reports one through the end of the slot space instead.

A suffix is judged against the slot after the frontier when the cut lies past it. So a cut beyond
that slot is served by a suffix that does not begin there.

## Main results

* `retained_exact_iff`: over runs, when the bounds are those of what is read.
* `installInPlace_run`: the body of the source, which works in place, leaves the log as it was
  when it refuses.
* `installSuffix_contract_iff`: when the contract of the install holds.
-/

namespace UvrrCore

namespace SegmentedLog

/-! ### Runs of a log -/

/-- The calls that write a log. -/
inductive LogCall where
  | accept (entries : List LogEntry)
  | installSuffix (start : Nat) (suffix : List LogEntry)
  | reclaimThrough (checkpoint : Nat)

/-- The log a call leaves: a refused one leaves it as it was. -/
def after (l : SegmentedLog) : LogCall → SegmentedLog
  | .accept entries => (l.accept entries).toOption.getD l
  | .installSuffix start suffix => (l.installSuffix start suffix).toOption.getD l
  | .reclaimThrough checkpoint => l.reclaimThrough checkpoint

def run (l : SegmentedLog) (calls : List LogCall) : SegmentedLog := calls.foldl after l

/-- The call puts entries into a log that never held one: a run from the anchor, or a run from its
own cut, with a slot left behind it. -/
def LogCall.Opens : LogCall → Prop
  | .accept entries =>
    entries ≠ [] ∧ ContiguousFrom voidSlot entries ∧ voidSlot + entries.length < u64Bound
  | .installSuffix start suffix =>
    suffix ≠ [] ∧ voidSlot ≤ start ∧ ContiguousFrom start suffix ∧
      start + suffix.length < u64Bound
  | .reclaimThrough _ => False

/-- The bounds reported are those of what is read. -/
def RetainedExact (l : SegmentedLog) : Prop :=
  ∀ slot < u64Bound, (Journal.get l slot).isSome ↔
    (Journal.retained l).1 ≤ slot ∧ slot ≤ (Journal.retained l).2

/-- A log that never held an entry. -/
structure Fresh (l : SegmentedLog) : Prop where
  accepted : l.accepted = none
  firstSlot : l.firstSlot = voidSlot

theorem accept_of_data {l : SegmentedLog} {entries : List LogEntry} {data : LogData}
    (h : l.toLogData.accept entries = .ok data) : ∃ l', l.accept entries = .ok l' := by
  unfold accept
  split
  · rename_i error herror
    rw [h] at herror
    cases herror
  · exact ⟨_, rfl⟩

theorem installSuffix_of_data {l : SegmentedLog} {start : Nat} {suffix : List LogEntry}
    {data : LogData} (h : l.toLogData.installSuffix start suffix = .ok data) :
    ∃ l', l.installSuffix start suffix = .ok l' := by
  unfold installSuffix
  split
  · rename_i error herror
    rw [h] at herror
    cases herror
  · exact ⟨_, rfl⟩

/-- What a log that never held an entry accepts. -/
theorem Fresh.accept_ok_iff {l : SegmentedLog} (h : l.Fresh) {entries : List LogEntry}
    (hne : entries ≠ []) :
    (∃ l', l.accept entries = .ok l') ↔ (LogCall.accept entries).Opens := by
  have hnext : l.expectedNext = .ok voidSlot := by
    unfold LogData.expectedNext
    rw [h.accepted, h.firstSlot]
  obtain ⟨last, hlast⟩ := Option.ne_none_iff_exists'.mp (mt List.getLast?_eq_none_iff.mp hne)
  constructor
  · rintro ⟨l', hok⟩
    have hdata := accept_data hok
    unfold LogData.accept at hdata
    simp only [hlast, hnext] at hdata
    split at hdata
    · cases hdata
    · rename_i hcheck
      obtain ⟨hrun, hbound⟩ := LogData.checkRun_ok hcheck
      exact ⟨hne, hrun, hbound hne⟩
  · rintro ⟨-, hrun, hbound⟩
    cases hdata : l.toLogData.accept entries with
    | ok data => exact accept_of_data hdata
    | error error =>
      unfold LogData.accept at hdata
      simp only [hlast, hnext, LogData.checkRun_of_contiguous hrun fun _ => hbound] at hdata
      cases hdata

theorem Fresh.installSuffix_ok_iff {l : SegmentedLog} (h : l.Fresh) {start : Nat}
    {suffix : List LogEntry} :
    (∃ l', l.installSuffix start suffix = .ok l') ↔
      (LogCall.installSuffix start suffix).Opens := by
  have hcut : l.expectedCut start = .ok start := by
    unfold LogData.expectedCut
    rw [h.accepted]
  constructor
  · rintro ⟨l', hok⟩
    have hdata := installSuffix_data hok
    obtain ⟨-, -, -, hne, hret, -⟩ := l.wellFormed.installSuffix hdata
    rw [h.firstSlot] at hret
    unfold LogData.installSuffix at hdata
    simp only [hcut] at hdata
    split at hdata
    · cases hdata
    · split at hdata
      · cases hdata
      · rename_i hcheck
        obtain ⟨hrun, hbound⟩ := LogData.checkRun_ok hcheck
        exact ⟨hne, hret, hrun, hbound hne⟩
  · rintro ⟨hne, hret, hrun, hbound⟩
    obtain ⟨last, hlast⟩ := Option.ne_none_iff_exists'.mp (mt List.getLast?_eq_none_iff.mp hne)
    have hfirst : ¬start < l.firstSlot := by rw [h.firstSlot]; omega
    cases hdata : l.toLogData.installSuffix start suffix with
    | ok data => exact installSuffix_of_data hdata
    | error error =>
      unfold LogData.installSuffix at hdata
      simp only [if_neg hfirst, hcut, LogData.checkRun_of_contiguous hrun fun _ => hbound,
        hlast] at hdata
      cases hdata

/-- **The first call that opens** leaves a frontier; any other leaves the log without one. -/
theorem Fresh.after_cases {l : SegmentedLog} (h : l.Fresh) (call : LogCall) :
    (call.Opens ∧ ∃ frontier, (l.after call).accepted = some frontier) ∨
      (¬call.Opens ∧ (l.after call).Fresh) := by
  cases call with
  | accept entries =>
    by_cases hne : entries = []
    · subst hne
      exact .inr ⟨fun hopens => hopens.1 rfl, h⟩
    · cases haccept : l.accept entries with
      | error error =>
        refine .inr ⟨fun hopens => ?_, by rw [after, haccept]; exact h⟩
        obtain ⟨l', hok⟩ := (h.accept_ok_iff hne).mpr hopens
        rw [haccept] at hok
        cases hok
      | ok l' =>
        obtain ⟨-, -, -, -, haccepted⟩ := l.wellFormed.accept hne (accept_data haccept)
        exact .inl ⟨(h.accept_ok_iff hne).mp ⟨l', haccept⟩, _, by
          rw [after, haccept]
          exact haccepted⟩
  | installSuffix start suffix =>
    cases hinstall : l.installSuffix start suffix with
    | error error =>
      refine .inr ⟨fun hopens => ?_, by rw [after, hinstall]; exact h⟩
      obtain ⟨l', hok⟩ := h.installSuffix_ok_iff.mpr hopens
      rw [hinstall] at hok
      cases hok
    | ok l' =>
      obtain ⟨_, -, -, -, -, -, -, -, haccepted⟩ :=
        l.wellFormed.installSuffix (installSuffix_data hinstall)
      exact .inl ⟨h.installSuffix_ok_iff.mp ⟨l', hinstall⟩, _, by
        rw [after, hinstall]
        exact haccepted⟩
  | reclaimThrough checkpoint =>
    obtain ⟨-, haccepted, dropped, hle, -, hfirst, -⟩ := l.wellFormed.reclaimThrough checkpoint
    have hempty := l.wellFormed.frontier
    rw [h.accepted] at hempty
    rw [hempty, List.length_nil] at hle
    exact .inr ⟨id, haccepted.trans h.accepted, hfirst.trans (by rw [h.firstSlot]; omega)⟩

/-- A frontier is never lost. -/
theorem after_accepted {l : SegmentedLog} {frontier : Nat} (h : l.accepted = some frontier)
    (call : LogCall) : ∃ moved, (l.after call).accepted = some moved := by
  cases call with
  | accept entries =>
    by_cases hne : entries = []
    · subst hne
      exact ⟨frontier, h⟩
    · cases haccept : l.accept entries with
      | error error => exact ⟨frontier, by rw [after, haccept]; exact h⟩
      | ok l' =>
        obtain ⟨-, -, -, -, haccepted⟩ := l.wellFormed.accept hne (accept_data haccept)
        exact ⟨_, by rw [after, haccept]; exact haccepted⟩
  | installSuffix start suffix =>
    cases hinstall : l.installSuffix start suffix with
    | error error => exact ⟨frontier, by rw [after, hinstall]; exact h⟩
    | ok l' =>
      obtain ⟨_, -, -, -, -, -, -, -, haccepted⟩ :=
        l.wellFormed.installSuffix (installSuffix_data hinstall)
      exact ⟨_, by rw [after, hinstall]; exact haccepted⟩
  | reclaimThrough checkpoint =>
    obtain ⟨-, haccepted, -⟩ := l.wellFormed.reclaimThrough checkpoint
    exact ⟨frontier, haccepted.trans h⟩

theorem run_accepted {l : SegmentedLog} {frontier : Nat} (h : l.accepted = some frontier)
    (calls : List LogCall) : ∃ moved, (l.run calls).accepted = some moved := by
  induction calls generalizing l frontier with
  | nil => exact ⟨frontier, h⟩
  | cons call calls ih =>
    obtain ⟨moved, hmoved⟩ := after_accepted h call
    exact ih hmoved

/-- A run over a log that never held an entry leaves a frontier if some call opens, and else the
log still never held one. -/
theorem Fresh.run_cases {l : SegmentedLog} (h : l.Fresh) (calls : List LogCall) :
    ((∃ call ∈ calls, call.Opens) ∧ ∃ frontier, (l.run calls).accepted = some frontier) ∨
      ((¬∃ call ∈ calls, call.Opens) ∧ (l.run calls).Fresh) := by
  induction calls generalizing l with
  | nil => exact .inr ⟨fun ⟨_, hmem, _⟩ => (List.not_mem_nil hmem), h⟩
  | cons call calls ih =>
    rw [List.exists_mem_cons_iff]
    rcases h.after_cases call with ⟨hopens, frontier, hsome⟩ | ⟨hshut, hfresh⟩
    · exact .inl ⟨.inl hopens, run_accepted hsome calls⟩
    · rcases ih hfresh with ⟨hlater, hsome⟩ | ⟨hnever, hstill⟩
      · exact .inl ⟨.inr hlater, hsome⟩
      · exact .inr ⟨fun hany => hany.elim hshut hnever, hstill⟩

/-- With a frontier the bounds are exact. -/
theorem retained_exact_of_accepted {l : SegmentedLog} {frontier : Nat}
    (h : l.accepted = some frontier) : l.RetainedExact := by
  intro slot _
  have hfrontier := l.wellFormed.frontier
  rw [h] at hfrontier
  have hlast : (Journal.retained l).2 = frontier := LawfulJournal.retained_last h
  rw [get_isSome_iff, hlast]
  show _ ↔ l.firstSlot ≤ slot ∧ slot ≤ frontier
  omega

/-- The bounds of a log that never held an entry are those of all slots. -/
theorem Fresh.not_retainedExact {l : SegmentedLog} (h : l.Fresh) : ¬l.RetainedExact := by
  intro hexact
  have hempty := l.wellFormed.frontier
  rw [h.accepted] at hempty
  -- the first slot of the log is within the bounds and not held
  have hheld := (hexact voidSlot (by decide)).mpr ⟨h.firstSlot.le, by
    show voidSlot ≤ l.accepted.getD (u64Bound - 1)
    rw [h.accepted]
    decide⟩
  rw [get_isSome_iff, hempty, List.length_nil] at hheld
  omega

/-- **When the bounds reported are those of what is read**, for the log any run of calls leaves:
some call of the run is one that puts entries into a log that never held one. -/
theorem retained_exact_iff (tailCapacity : Nat) (calls : List LogCall) :
    ((withTailCapacity tailCapacity).run calls).RetainedExact ↔
      ∃ call ∈ calls, call.Opens := by
  have hfresh : (withTailCapacity tailCapacity).Fresh := ⟨rfl, rfl⟩
  rcases hfresh.run_cases calls with ⟨hopens, frontier, hfrontier⟩ | ⟨hnever, hstill⟩
  · exact ⟨fun _ => hopens, fun _ => retained_exact_of_accepted hfrontier⟩
  · exact ⟨fun hexact => absurd hexact hstill.not_retainedExact, fun hopens => absurd hopens hnever⟩

/-- The log before genesis: the bounds are those of all slots, and none is read. -/
theorem retained_of_empty :
    Journal.retained (withTailCapacity 4) = (1, u64Bound - 1) ∧
      ∀ slot, Journal.get (withTailCapacity 4) slot = none := by
  refine ⟨rfl, fun slot => ?_⟩
  rw [get_eq]
  rfl

end SegmentedLog

namespace SegmentedLog

/-- **The contract of an install.** The suffix is a run from the cut, the cut is at most one past
the frontier, or anchors a log without one, and the log keeps what it held below the cut. -/
structure InstallContract (l : SegmentedLog) (start : Nat) (suffix : List LogEntry)
    (l' : SegmentedLog) : Prop where
  nonempty : suffix ≠ []
  contiguous : ContiguousFrom start suffix
  reach : ∀ frontier, Journal.accepted l = some frontier → start ≤ frontier + 1
  anchor : Journal.accepted l = none → (Journal.retained l').1 = start
  content : l'.content = (l.content.takeWhile fun entry => decide (entry.slot < start)) ++ suffix
  unbroken : ContiguousFrom (Journal.retained l').1 l'.content
  reads : ∀ slot, Journal.get l' slot =
    if slot < start then Journal.get l slot else entryAt suffix slot

/-- The cut lies beyond the slot after the frontier, and the suffix is a run from that slot. -/
def Overshoots (l : SegmentedLog) (start : Nat) (suffix : List LogEntry) : Prop :=
  ∃ frontier, Journal.accepted l = some frontier ∧ frontier + 1 < start ∧ suffix ≠ [] ∧
    ContiguousFrom (frontier + 1) suffix ∧ frontier + 1 + suffix.length < u64Bound

theorem anchored_firstSlot (l : LogData) (start : Nat) :
    (l.anchored start).firstSlot = if l.accepted = none then start else l.firstSlot := by
  unfold LogData.anchored
  cases l.accepted with
  | none => rfl
  | some frontier => rfl

/-- An install that succeeds without an overshoot meets the contract. -/
theorem installSuffix_contract {l l' : SegmentedLog} {start : Nat} {suffix : List LogEntry}
    (hover : ¬l.Overshoots start suffix) (h : l.installSuffix start suffix = .ok l') :
    l.InstallContract start suffix l' := by
  obtain ⟨base, hbase, -, hne, hret, hrun, hfirst, hcontent, haccepted⟩ :=
    l.wellFormed.installSuffix (installSuffix_data h)
  have hfrontier := l.wellFormed.frontier
  rw [anchored_firstSlot] at hfirst
  have hreach : ∀ frontier, l.accepted = some frontier → start ≤ frontier + 1 := by
    intro frontier hacc
    by_contra hlt
    rw [hacc] at hbase
    simp only at hbase
    have hcut : base = frontier + 1 := by omega
    have hend := l'.wellFormed.frontier
    rw [haccepted] at hend
    have hpos := List.length_pos_iff.mpr hne
    exact hover ⟨frontier, hacc, by omega, hne, hcut ▸ hrun, by omega⟩
  have hcut : base = start := by
    rw [hbase]
    cases hacc : l.accepted with
    | none => rfl
    | some frontier => exact Nat.min_eq_left (hreach frontier hacc)
  subst hcut
  have hfront : l.content.take (base - l'.firstSlot) =
      l.content.takeWhile fun entry => decide (entry.slot < base) := by
    cases hacc : l.accepted with
    | none =>
      rw [hacc] at hfrontier
      rw [hfrontier, List.take_nil]
      rfl
    | some frontier =>
      rw [hfirst, if_neg (by rw [hacc]; exact Option.some_ne_none frontier),
        LogData.takeWhile_lt_of_contiguous l.wellFormed.contiguous]
  refine ⟨hne, hrun, hreach, fun hnone => ?_, by rw [hcontent, hfront],
    l'.wellFormed.contiguous, fun slot => ?_⟩
  · exact hfirst.trans (if_pos hnone)
  · cases hacc : l.accepted with
    | none =>
      rw [hacc] at hfrontier
      rw [get_eq, get_eq, hcontent, hfrontier, List.take_nil, List.nil_append, hrun.entryAt_eq]
      by_cases hlt : slot < base
      · rw [if_pos hlt, if_pos hlt]
        rfl
      · rw [if_neg hlt, if_neg hlt]
    | some frontier =>
      obtain ⟨-, -, -, -, -, hreads⟩ := LawfulJournal.installSuffix_ok
        (show Journal.accepted l = some frontier from hacc)
        (show Journal.installSuffix l base suffix = .ok l' from h)
      rw [Nat.min_eq_left (hreach frontier hacc)] at hreads
      exact hreads slot

/-- An overshoot is accepted. -/
theorem installSuffix_of_overshoots {l : SegmentedLog} {start : Nat} {suffix : List LogEntry}
    (h : l.Overshoots start suffix) : ∃ l', l.installSuffix start suffix = .ok l' := by
  obtain ⟨frontier, hacc, hlt, hne, hrun, hbound⟩ := h
  have hacc : l.accepted = some frontier := hacc
  have hfrontier := l.wellFormed.frontier
  rw [hacc] at hfrontier
  have hcut : l.expectedCut start = .ok (frontier + 1) := by
    have hnext : Slot.next frontier = some (frontier + 1) :=
      Slot.next_eq_some.mpr ⟨hfrontier.2, rfl⟩
    unfold LogData.expectedCut
    simp only [hacc, if_pos (show frontier < start by omega), hnext]
  obtain ⟨last, hlast⟩ : ∃ last, suffix.getLast? = some last := by
    cases hlast : suffix.getLast? with
    | none => exact absurd (List.getLast?_eq_none_iff.mp hlast) hne
    | some last => exact ⟨last, rfl⟩
  cases hdata : l.toLogData.installSuffix start suffix with
  | ok data => exact installSuffix_of_data hdata
  | error error =>
    unfold LogData.installSuffix at hdata
    rw [if_neg (by omega)] at hdata
    simp only [hcut, LogData.checkRun_of_contiguous hrun fun _ => hbound, hlast] at hdata
    cases hdata

/-- **When an install meets its contract**, for every log, cut and suffix: the cut does not
overshoot the frontier with a suffix that continues it. A refused install leaves the log as it
was in any case. -/
theorem installSuffix_contract_iff (l : SegmentedLog) (start : Nat) (suffix : List LogEntry) :
    ((∀ l', l.installSuffix start suffix = .ok l' → l.InstallContract start suffix l') ∧
      ∀ error left, (LogData.installInPlace start suffix).run.run l.toLogData =
        (.error error, left) → left = l.toLogData) ↔ ¬l.Overshoots start suffix := by
  constructor
  · rintro ⟨hcontract, -⟩ hover
    obtain ⟨l', hok⟩ := installSuffix_of_overshoots hover
    obtain ⟨frontier, hacc, hlt, -⟩ := hover
    exact absurd ((hcontract l' hok).reach frontier hacc) (by omega)
  · intro hover
    refine ⟨fun l' hok => installSuffix_contract hover hok, fun error left hrun => ?_⟩
    rw [LogData.installInPlace_run] at hrun
    cases hinstall : l.toLogData.installSuffix start suffix with
    | error refusal =>
      rw [hinstall] at hrun
      exact (congrArg Prod.snd hrun).symm
    | ok data =>
      rw [hinstall] at hrun
      cases hrun

/-- A log of one entry at slot 1. -/
def single : SegmentedLog :=
  (withTailCapacity 4).after (.accept [⟨1, 0, .system .void⟩])

/-- The cut is slot 10 and the suffix begins at slot 2. It is installed at slot 2. -/
theorem single_overshot :
    ∃ l', single.installSuffix 10 [⟨2, 0, .system .void⟩] = .ok l' ∧
      ¬single.InstallContract 10 [⟨2, 0, .system .void⟩] l' ∧
      Journal.get l' 2 = some ⟨2, 0, .system .void⟩ :=
  ⟨_, rfl, fun h => absurd h.contiguous.1 (by decide), rfl⟩

end SegmentedLog

end UvrrCore
