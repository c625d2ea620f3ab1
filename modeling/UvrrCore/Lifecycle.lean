import UvrrCore.Replica.State

/-!
# The boot gate

A node keeps four copies of a marker: an identity and how far the last life of it got. `boot`
reads the copies and classifies the start; the sessions after it write the next markers, all
four copies at a time.

* `SuperblockCopies.classify` is the quorum read: the copies of one identity form a cohort, a
  cohort of two works, the highest working identity wins, and two `stopped` copies in it are a
  clean stop.
* `LifeEvent.step` drives one node over its lives. A write is durable when it returns; a crash,
  or an error, may leave any subset of the four copies written.
* `Life` is what history keeps of one life: the identities it ran under, the identity it
  latched, and what its end left on disk.
-/

namespace UvrrCore

/-! ### Markers -/

inductive Marker where
  | stopping
  | stopped
  | restarting
  | joining
deriving DecidableEq, Repr

/-- One superblock copy. A copy that was never written carries the blank identity 0. -/
structure CopyState where
  identity : Nat
  marker : Marker
deriving DecidableEq, Repr

structure SuperblockCopies where
  copies : Fin 4 → CopyState
deriving DecidableEq

/-- The copies that agree on one identity: how many there are and how many are stopped. -/
structure Cohort where
  identity : Nat
  count : Nat
  stopped : Nat
deriving DecidableEq, Repr

inductive RestartClass where
  | stopped
  | notStopped
deriving DecidableEq, Repr

namespace SuperblockCopies

def uniform (identity : Nat) (marker : Marker) : SuperblockCopies where
  copies _ := { identity := identity, marker := marker }

/-- The copies in the order of the read. -/
def toList (s : SuperblockCopies) : List CopyState := List.ofFn s.copies

/-- A copy counted into its cohort, the last one when it is the first of its identity. -/
def joinCohort (copy : CopyState) : List Cohort → List Cohort
  | [] =>
    [{ identity := copy.identity, count := 1
       stopped := if copy.marker = .stopped then 1 else 0 }]
  | cohort :: rest =>
    if cohort.identity = copy.identity then
      { cohort with
        count := cohort.count + 1
        stopped := cohort.stopped + if copy.marker = .stopped then 1 else 0 } :: rest
    else cohort :: joinCohort copy rest

def cohorts (copies : List CopyState) : List Cohort :=
  copies.foldl (fun acc copy => if copy.identity = 0 then acc else joinCohort copy acc) []

/-- The cohort with the highest identity, the last among equals. -/
def highest : List Cohort → Option Cohort
  | [] => none
  | cohort :: rest =>
    match highest rest with
    | none => some cohort
    | some best => if best.identity < cohort.identity then some cohort else some best

/-- **The quorum read.** -/
def classify (s : SuperblockCopies) : Option (RestartClass × Nat) :=
  match highest ((cohorts s.toList).filter fun cohort => decide (2 ≤ cohort.count)) with
  | none => none
  | some cohort =>
    some (if 2 ≤ cohort.stopped then .stopped else .notStopped, cohort.identity)

/-! ### What the quorum read counts -/

def carries (identity : Nat) (copy : CopyState) : Bool := copy.identity == identity

def carriesStopped (identity : Nat) (copy : CopyState) : Bool :=
  copy.identity == identity && copy.marker == .stopped

/-- How many copies hold an identity as stopped. -/
def stoppedCopies (s : SuperblockCopies) (identity : Nat) : Nat :=
  s.toList.countP (carriesStopped identity)

/-- The cohorts of the copies read so far: one for each identity that is not blank, with its
exact counts. -/
structure Tallied (seen : List CopyState) (cohorts : List Cohort) : Prop where
  exact : ∀ cohort ∈ cohorts, cohort.identity ≠ 0 ∧
    cohort.count = seen.countP (carries cohort.identity) ∧
    cohort.stopped = seen.countP (carriesStopped cohort.identity)
  covered : ∀ copy ∈ seen, copy.identity ≠ 0 → ∃ cohort ∈ cohorts, cohort.identity = copy.identity
  distinct : (cohorts.map Cohort.identity).Nodup

theorem joinCohort_identities (copy : CopyState) (cohorts : List Cohort) :
    (joinCohort copy cohorts).map Cohort.identity =
      if copy.identity ∈ cohorts.map Cohort.identity then cohorts.map Cohort.identity
      else cohorts.map Cohort.identity ++ [copy.identity] := by
  induction cohorts with
  | nil => rfl
  | cons cohort rest ih =>
    by_cases heq : cohort.identity = copy.identity
    · simp [joinCohort, heq]
    · have hne : copy.identity ≠ cohort.identity := fun h => heq h.symm
      simp only [joinCohort, if_neg heq, List.map_cons, List.mem_cons, hne, false_or, ih]
      split <;> simp

theorem joinCohort_mem {copy : CopyState} {cohorts : List Cohort}
    (hdistinct : (cohorts.map Cohort.identity).Nodup) {cohort : Cohort}
    (h : cohort ∈ joinCohort copy cohorts) :
    (cohort ∈ cohorts ∧ cohort.identity ≠ copy.identity) ∨
      (cohort.identity = copy.identity ∧
        ∃ count stopped, cohort.count = count + 1 ∧
          cohort.stopped = stopped + (if copy.marker = .stopped then 1 else 0) ∧
          ((count = 0 ∧ stopped = 0 ∧ copy.identity ∉ cohorts.map Cohort.identity) ∨
            ∃ old ∈ cohorts, old.identity = copy.identity ∧ old.count = count ∧
              old.stopped = stopped)) := by
  induction cohorts with
  | nil =>
    rw [joinCohort, List.mem_singleton] at h
    subst h
    exact Or.inr ⟨rfl, 0, 0, rfl, (Nat.zero_add _).symm, Or.inl ⟨rfl, rfl, by simp⟩⟩
  | cons head rest ih =>
    rw [List.map_cons, List.nodup_cons] at hdistinct
    obtain ⟨hhead, hrest⟩ := hdistinct
    by_cases heq : head.identity = copy.identity
    · simp only [joinCohort, if_pos heq] at h
      rcases List.mem_cons.mp h with rfl | h
      · exact Or.inr ⟨heq, head.count, head.stopped, rfl, rfl,
          Or.inr ⟨head, List.mem_cons_self, heq, rfl, rfl⟩⟩
      · refine Or.inl ⟨List.mem_cons_of_mem _ h, fun hsame => hhead ?_⟩
        rw [heq, ← hsame]
        exact List.mem_map_of_mem h
    · simp only [joinCohort, if_neg heq] at h
      rcases List.mem_cons.mp h with rfl | h
      · exact Or.inl ⟨List.mem_cons_self, heq⟩
      · rcases ih hrest h with ⟨hmem, hne⟩ | ⟨hsame, count, stopped, hcount, hstopped, hold⟩
        · exact Or.inl ⟨List.mem_cons_of_mem _ hmem, hne⟩
        · refine Or.inr ⟨hsame, count, stopped, hcount, hstopped, ?_⟩
          rcases hold with ⟨hz, hz', hnot⟩ | ⟨old, hold, hrest⟩
          · refine Or.inl ⟨hz, hz', ?_⟩
            rw [List.map_cons, List.mem_cons, not_or]
            exact ⟨fun h => heq h.symm, hnot⟩
          · exact Or.inr ⟨old, List.mem_cons_of_mem _ hold, hrest⟩

theorem countP_carriesStopped_le (seen : List CopyState) (identity : Nat) :
    seen.countP (carriesStopped identity) ≤ seen.countP (carries identity) := by
  refine List.countP_mono_left fun copy _ h => ?_
  rw [carriesStopped, Bool.and_eq_true] at h
  exact h.1

/-- An identity without a cohort is carried by no copy. -/
theorem Tallied.absent {seen : List CopyState} {cohorts : List Cohort} (h : Tallied seen cohorts)
    {identity : Nat} (hid : identity ≠ 0) (hnot : identity ∉ cohorts.map Cohort.identity) :
    seen.countP (carries identity) = 0 := by
  rw [List.countP_eq_zero]
  intro copy hmem hcarries
  have hsame : copy.identity = identity := by simpa [carries] using hcarries
  obtain ⟨cohort, hcohort, hcid⟩ := h.covered copy hmem (hsame ▸ hid)
  exact hnot (List.mem_map.mpr ⟨cohort, hcohort, hcid.trans hsame⟩)

theorem Tallied.snoc {seen : List CopyState} {cohorts : List Cohort} (h : Tallied seen cohorts)
    (copy : CopyState) :
    Tallied (seen ++ [copy])
      (if copy.identity = 0 then cohorts else joinCohort copy cohorts) := by
  have hcarries : ∀ identity, (seen ++ [copy]).countP (carries identity) =
      seen.countP (carries identity) + if copy.identity = identity then 1 else 0 := by
    intro identity
    simp [List.countP_append, List.countP_singleton, carries]
  have hstopped : ∀ identity, (seen ++ [copy]).countP (carriesStopped identity) =
      seen.countP (carriesStopped identity) +
        if copy.identity = identity ∧ copy.marker = .stopped then 1 else 0 := by
    intro identity
    simp [List.countP_append, List.countP_singleton, carriesStopped]
  split
  · rename_i hblank
    refine ⟨fun cohort hmem => ?_, fun other hmem hid => ?_, h.distinct⟩
    · obtain ⟨hid, hcount, hstop⟩ := h.exact cohort hmem
      have hne : copy.identity ≠ cohort.identity := fun heq => hid (heq ▸ hblank)
      rw [hcarries, hstopped, if_neg hne, if_neg fun hc => hne hc.1]
      exact ⟨hid, hcount, hstop⟩
    · rcases List.mem_append.mp hmem with hmem | hmem
      · exact h.covered other hmem hid
      · rw [List.mem_singleton] at hmem
        exact absurd (hmem ▸ hblank) hid
  · rename_i hid
    refine ⟨fun cohort hmem => ?_, fun other hmem hoid => ?_, ?_⟩
    · rcases joinCohort_mem h.distinct hmem with ⟨hold, hne⟩ | ⟨hsame, count, stopped, hc, hs, hold⟩
      · obtain ⟨hcid, hcount, hstop⟩ := h.exact cohort hold
        rw [hcarries, hstopped, if_neg fun heq => hne heq.symm, if_neg fun hc => hne hc.1.symm]
        exact ⟨hcid, hcount, hstop⟩
      · rw [hsame, hcarries, hstopped, if_pos rfl, hc, hs]
        refine ⟨hid, ?_, ?_⟩
        · rcases hold with ⟨hz, -, hnot⟩ | ⟨old, holdmem, hoid, hcount, -⟩
          · rw [hz, h.absent hid hnot]
          · rw [← hcount, (h.exact old holdmem).2.1, hoid]
        · rcases hold with ⟨-, hz, hnot⟩ | ⟨old, holdmem, hoid, -, hstop⟩
          · have := countP_carriesStopped_le seen copy.identity
            rw [h.absent hid hnot] at this
            rw [hz, Nat.le_zero.mp this]
            simp
          · rw [← hstop, (h.exact old holdmem).2.2, hoid]
            simp
    · have hids := joinCohort_identities copy cohorts
      have hin : other.identity ∈ (joinCohort copy cohorts).map Cohort.identity := by
        rw [hids]
        rcases List.mem_append.mp hmem with hmem | hmem
        · obtain ⟨cohort, hcohort, hcid⟩ := h.covered other hmem hoid
          have : other.identity ∈ cohorts.map Cohort.identity :=
            List.mem_map.mpr ⟨cohort, hcohort, hcid⟩
          split
          · exact this
          · exact List.mem_append_left _ this
        · rw [List.mem_singleton.mp hmem]
          split
          · assumption
          · exact List.mem_append_right _ (List.mem_singleton.mpr rfl)
      obtain ⟨cohort, hcohort, hcid⟩ := List.mem_map.mp hin
      exact ⟨cohort, hcohort, hcid⟩
    · rw [joinCohort_identities]
      split
      · exact h.distinct
      · rename_i hnot
        rw [List.nodup_append]
        refine ⟨h.distinct, List.nodup_singleton _, fun a ha b hb heq => hnot ?_⟩
        rw [← List.mem_singleton.mp hb, ← heq]
        exact ha

theorem tallied_cohorts (copies : List CopyState) : Tallied copies (cohorts copies) := by
  induction copies using List.reverseRecOn with
  | nil => exact ⟨by simp [cohorts], by simp, by simp [cohorts]⟩
  | append_singleton seen copy ih =>
    have hstep : cohorts (seen ++ [copy]) =
        if copy.identity = 0 then cohorts seen else joinCohort copy (cohorts seen) := by
      rw [cohorts, List.foldl_append]
      rfl
    rw [hstep]
    exact ih.snoc copy

theorem highest_mem {l : List Cohort} {cohort : Cohort} (h : highest l = some cohort) :
    cohort ∈ l := by
  induction l with
  | nil => cases h
  | cons head rest ih =>
    rw [highest] at h
    cases hrest : highest rest with
    | none =>
      rw [hrest, Option.some.injEq] at h
      exact h ▸ List.mem_cons_self
    | some best =>
      simp only [hrest] at h
      split at h
      · exact (Option.some.inj h) ▸ List.mem_cons_self
      · exact List.mem_cons_of_mem _ (ih (hrest.trans h))

/-- **What a verdict says.** The identity is no blank, two copies carry it, and the class is
whether two of them are stopped. -/
theorem classify_eq_some {s : SuperblockCopies} {verdict : RestartClass} {identity : Nat}
    (h : s.classify = some (verdict, identity)) :
    identity ≠ 0 ∧ 2 ≤ s.toList.countP (carries identity) ∧
      (verdict = .stopped ↔ 2 ≤ s.stoppedCopies identity) := by
  unfold classify at h
  cases hbest : highest ((cohorts s.toList).filter fun cohort => decide (2 ≤ cohort.count)) with
  | none => rw [hbest] at h; cases h
  | some cohort =>
    simp only [hbest, Option.some.injEq, Prod.mk.injEq] at h
    obtain ⟨hverdict, hidentity⟩ := h
    have hmem := List.mem_filter.mp (highest_mem hbest)
    obtain ⟨hid, hcount, hstopped⟩ := (tallied_cohorts s.toList).exact cohort hmem.1
    have hworks : 2 ≤ cohort.count := of_decide_eq_true hmem.2
    subst hidentity
    refine ⟨hid, hcount ▸ hworks, ?_⟩
    rw [← hverdict, stoppedCopies, ← hstopped]
    split <;> simp_all

theorem exists_highest {l : List Cohort} (h : l ≠ []) :
    ∃ best ∈ l, highest l = some best ∧ ∀ cohort ∈ l, cohort.identity ≤ best.identity := by
  induction l with
  | nil => exact absurd rfl h
  | cons head rest ih =>
    by_cases hrest : rest = []
    · subst hrest
      exact ⟨head, List.mem_cons_self, rfl, fun cohort hcohort => by
        rw [List.mem_singleton.mp hcohort]⟩
    · obtain ⟨leader, hleader, hhighest, hle⟩ := ih hrest
      rw [highest, hhighest]
      by_cases hlt : leader.identity < head.identity
      · refine ⟨head, List.mem_cons_self, if_pos hlt, ?_⟩
        refine List.forall_mem_cons.mpr ⟨Nat.le_refl _, fun cohort hcohort => ?_⟩
        exact Nat.le_trans (hle cohort hcohort) (Nat.le_of_lt hlt)
      · exact ⟨leader, List.mem_cons_of_mem _ hleader, if_neg hlt,
          List.forall_mem_cons.mpr ⟨Nat.not_lt.mp hlt, hle⟩⟩

/-- An identity on two copies, if it is no blank, has a cohort that works. -/
theorem exists_working {copies : List CopyState} {identity : Nat} (hid : identity ≠ 0)
    (hcount : 2 ≤ copies.countP (carries identity)) :
    ∃ cohort ∈ (cohorts copies).filter fun cohort => decide (2 ≤ cohort.count),
      cohort.identity = identity := by
  have htallied := tallied_cohorts copies
  obtain ⟨copy, hmem, hcarries⟩ := List.countP_pos_iff.mp (Nat.lt_of_lt_of_le Nat.two_pos hcount)
  have hcopy : copy.identity = identity := beq_iff_eq.mp hcarries
  obtain ⟨cohort, hcohort, hcid⟩ := htallied.covered copy hmem (hcopy ▸ hid)
  rw [hcopy] at hcid
  refine ⟨cohort, List.mem_filter.mpr ⟨hcohort, decide_eq_true ?_⟩, hcid⟩
  rw [(htallied.exact cohort hcohort).2.1, hcid]
  exact hcount

/-- **The verdict is over the highest identity on two copies.** -/
theorem classify_of_highest {s : SuperblockCopies} {identity : Nat} (hid : identity ≠ 0)
    (hcount : 2 ≤ s.toList.countP (carries identity))
    (habove : ∀ other, identity < other → s.toList.countP (carries other) < 2) :
    s.classify =
      some (if 2 ≤ s.stoppedCopies identity then .stopped else .notStopped, identity) := by
  obtain ⟨cohort, hcohort, hcid⟩ := exists_working hid hcount
  obtain ⟨best, hmem, hbest, hle⟩ := exists_highest (List.ne_nil_of_mem hcohort)
  obtain ⟨hbmem, hbworks⟩ := List.mem_filter.mp hmem
  obtain ⟨-, hbcount, hbstopped⟩ := (tallied_cohorts s.toList).exact best hbmem
  have heq : best.identity = identity := by
    by_contra hne
    have hbelow : identity ≤ best.identity := hcid ▸ hle cohort hcohort
    have hfew := habove best.identity (Nat.lt_of_le_of_ne hbelow fun h => hne h.symm)
    rw [← hbcount] at hfew
    exact absurd (of_decide_eq_true hbworks) (Nat.not_le.mpr hfew)
  unfold classify
  simp only [hbest, hbstopped, heq]
  rfl

/-- **There is no verdict** when no identity but the blank one is on two copies. -/
theorem classify_eq_none {s : SuperblockCopies} :
    s.classify = none ↔ ∀ identity, identity ≠ 0 → s.toList.countP (carries identity) < 2 := by
  constructor
  · intro hnone identity hid
    by_contra hcount
    obtain ⟨cohort, hcohort, -⟩ := exists_working hid (Nat.not_lt.mp hcount)
    obtain ⟨best, -, hbest, -⟩ := exists_highest (List.ne_nil_of_mem hcohort)
    unfold classify at hnone
    rw [hbest] at hnone
    cases hnone
  · intro hfew
    cases hclassify : s.classify with
    | none => rfl
    | some verdict =>
      obtain ⟨hid, hcount, -⟩ := classify_eq_some hclassify
      exact absurd hcount (Nat.not_le.mpr (hfew _ hid))

end SuperblockCopies

/-! ### The gate and its sessions -/

/-- The engine's observation that the node is seated. Only a serving voter yields one. -/
structure Rejoined where
  status : Status
  weight : Nat
  serving : status = .normal
  votes : 1 ≤ weight

/-- The witness the deferred latch asks for. -/
def Replica.rejoined {J : Type} (r : Replica J) : Option Rejoined :=
  if hserving : r.progress.status = .normal then
    match r.progress.config.current.config.weightOf r.own with
    | none => none
    | some weight =>
      if hvotes : 1 ≤ weight then
        some { status := r.progress.status, weight := weight, serving := hserving, votes := hvotes }
      else none
  else none

/-- The superseded identity and its bump. -/
structure Bumped where
  old : Nat
  new : Nat
deriving DecidableEq, Repr

/-- Where the process of a life stands. -/
inductive Session where
  | down
  | first
  | clean (identity : Nat)
  | crashed (identity : Nat)
  | running (identity : Nat)
  | halting (identity : Nat)
  | draining (identity : Nat)
  | halted
deriving DecidableEq, Repr

/-- What the store holds; `none` before any marker was ever written. -/
abbrev MarkerStore := Option SuperblockCopies

/-- **The boot gate.** A torn marker set refuses to start. -/
def boot (store : MarkerStore) : Option Session :=
  match store with
  | none => some .first
  | some copies =>
    match copies.classify with
    | none => none
    | some (.stopped, identity) => some (.clean identity)
    | some (.notStopped, identity) => some (.crashed identity)

/-- The replacement pair of a crashed identity; `none` when its lives are exhausted. -/
def crashedPair (identity : Nat) : Option Bumped :=
  (NodeId.nextLife identity).map fun new => { old := identity, new := new }

/-- The store after a write that reached some of the copies. -/
def MarkerStore.overwrite (store : MarkerStore) (copies : SuperblockCopies)
    (written : Fin 4 → Bool) : MarkerStore :=
  if ∀ k, written k = false then store
  else
    let old := store.getD (SuperblockCopies.uniform 0 .stopping)
    some { copies := fun k => if written k then copies.copies k else old.copies k }

/-- How a write ends: it returns, it returns an error, or the process dies inside it. -/
inductive CommitOutcome where
  | done
  | failed (written : Fin 4 → Bool)
  | crashed (written : Fin 4 → Bool)

/-- What the host, the store and the environment may do to one node. -/
inductive LifeEvent where
  | boots
  | latchesFirst (genesis : Fin u32Bound) (outcome : CommitOutcome)
  | latchesClean (outcome : CommitOutcome)
  /-- The host runs the replica under the pair's new identity. -/
  | runsPair
  | latchesDeferred (witness : Rejoined) (outcome : CommitOutcome)
  | beginsStop (outcome : CommitOutcome)
  | drains (succeeds : Bool)
  | finishesStop (outcome : CommitOutcome)
  /-- The process ends: a crash, or the exit of a halted one. -/
  | ends

/-! ### Histories -/

/-- What is remembered of one life. -/
structure Life where
  /-- The identities the host ran a replica under. -/
  ran : List Nat
  /-- The identity whose latch returned. -/
  latched : Option Nat
  /-- The write of `finishesStop` returned. -/
  completed : Bool
  /-- The store at its end. -/
  left : MarkerStore
deriving DecidableEq

def Life.fresh : Life := { ran := [], latched := none, completed := false, left := none }

/-- How many stopped copies of an identity the life left behind. -/
def Life.stoppedLeft (life : Life) (identity : Nat) : Nat :=
  life.left.elim 0 fun copies => copies.stoppedCopies identity

/-- One node over its lives: the store, the live process, and the lives that ended, oldest
first. -/
structure LifeHistory where
  store : MarkerStore
  session : Session
  now : Life
  past : List Life
deriving DecidableEq

namespace LifeHistory

def fresh : LifeHistory := { store := none, session := .down, now := Life.fresh, past := [] }

/-- The process is gone; its life joins the past. -/
def endLife (h : LifeHistory) : LifeHistory :=
  { h with
    session := .down
    now := Life.fresh
    past := h.past ++ [{ h.now with left := h.store }] }

/-- A write of the session, and what follows when it returns. -/
def commit (h : LifeHistory) (identity : Nat) (marker : Marker) (outcome : CommitOutcome)
    (next : LifeHistory → LifeHistory) : LifeHistory :=
  let copies := SuperblockCopies.uniform identity marker
  match outcome with
  | .done => next { h with store := some copies }
  | .failed written => { h with store := h.store.overwrite copies written }
  | .crashed written => { h with store := h.store.overwrite copies written }.endLife

/-- The latch returned: the process runs under the identity. -/
def run (identity : Nat) (h : LifeHistory) : LifeHistory :=
  { h with
    session := .running identity
    now := { h.now with ran := h.now.ran ++ [identity], latched := some identity } }

/-- **One event.** An event the session has no type for does not happen. -/
def step (h : LifeHistory) (event : LifeEvent) : LifeHistory :=
  match event, h.session with
  | .boots, .down =>
    match boot h.store with
    | none => h
    | some session => { h with session := session }
  | .latchesFirst genesis outcome, .first =>
    h.commit genesis.val .joining outcome (run genesis.val)
  | .latchesClean outcome, .clean identity =>
    h.commit identity .restarting outcome (run identity)
  | .runsPair, .crashed identity =>
    match crashedPair identity with
    | none => h
    | some pair => { h with now := { h.now with ran := h.now.ran ++ [pair.new] } }
  | .latchesDeferred _ outcome, .crashed identity =>
    match NodeId.nextLife identity with
    | none => h
    | some new => h.commit new .joining outcome (run new)
  | .beginsStop outcome, .running identity =>
    h.commit identity .stopping outcome fun h => { h with session := .halting identity }
  | .drains succeeds, .halting identity =>
    if succeeds then { h with session := .draining identity } else h
  | .finishesStop outcome, .draining identity =>
    h.commit identity .stopped outcome fun h =>
      { h with session := .halted, now := { h.now with completed := true } }
  | .ends, .down => h
  | .ends, _ => h.endLife
  | _, _ => h

/-- The lives of the node, oldest first, the live one last. -/
def lives (h : LifeHistory) : List Life := h.past ++ [h.now]

/-- A life that ended without a completed stop shares no identity with a later one. -/
def NeverReused (h : LifeHistory) : Prop :=
  h.lives.Pairwise fun earlier later =>
    earlier.completed = false → ∀ identity ∈ earlier.ran, identity ∉ later.ran

instance (h : LifeHistory) : Decidable h.NeverReused :=
  inferInstanceAs (Decidable (List.Pairwise _ _))

/-- **Identities are reused, twice over.** In the first history the second and the third life
both run under the bump of the first one's identity: the second crashes before its latch. In
the second history a stop dies inside its last write, which reached two copies: the next life
resumes the identity. -/
theorem identity_reused :
    ¬(([.boots, .latchesFirst ⟨NodeId.new 1 1, by decide⟩ .done, .ends, .boots, .runsPair, .ends,
        .boots, .runsPair] : List LifeEvent).foldl step fresh).NeverReused ∧
    ¬(([.boots, .latchesFirst ⟨NodeId.new 1 1, by decide⟩ .done, .beginsStop .done,
        .drains true, .finishesStop (.crashed fun k => decide (k.val < 2)),
        .boots, .latchesClean .done] : List LifeEvent).foldl step fresh).NeverReused := by
  decide

/-- A life that latched its identity and left fewer than two stopped copies of it shares that
identity with no later life. -/
def LatchedNeverReused (h : LifeHistory) : Prop :=
  h.lives.Pairwise fun earlier later =>
    ∀ identity, earlier.latched = some identity → earlier.stoppedLeft identity < 2 →
      identity ∉ later.ran

end LifeHistory

/-! ### What a write leaves -/

theorem NodeId.lt_nextLife {n m : Nat} (hn : n < u32Bound) (h : NodeId.nextLife n = some m) :
    n < m ∧ m < u32Bound := by
  unfold NodeId.nextLife NodeId.systemId NodeId.crashCounter at h
  split at h
  · cases h
  · rename_i system hsystem
    split at h
    · cases h
    · rename_i counter hcounter
      split at hsystem
      · cases hsystem
      · split at hcounter
        · cases hcounter
        · split at h
          · rename_i hroom
            have hs := Option.some.inj hsystem
            have hc := Option.some.inj hcounter
            have hm := Option.some.inj h
            unfold NodeId.new at hm
            unfold u16Bound at *
            unfold u32Bound at hn ⊢
            omega
          · cases h

namespace MarkerStore

/-- Every copy is there and its identity is of a kind. -/
def Holds (P : Nat → Prop) (store : MarkerStore) : Prop :=
  ∃ copies, store = some copies ∧ ∀ k, P (copies.copies k).identity

/-- How many stopped copies of an identity the store has. -/
def stopped (store : MarkerStore) (identity : Nat) : Nat :=
  store.elim 0 fun copies => copies.stoppedCopies identity

theorem Holds.mono {P Q : Nat → Prop} {store : MarkerStore} (h : store.Holds P)
    (hPQ : ∀ n, P n → Q n) : store.Holds Q := by
  obtain ⟨copies, hstore, hall⟩ := h
  exact ⟨copies, hstore, fun k => hPQ _ (hall k)⟩

theorem holds_uniform {P : Nat → Prop} {identity : Nat} (marker : Marker) (h : P identity) :
    MarkerStore.Holds P (some (SuperblockCopies.uniform identity marker)) :=
  ⟨_, rfl, fun _ => h⟩

theorem Holds.overwrite {P : Nat → Prop} {store : MarkerStore} (h : store.Holds P)
    {identity : Nat} (hid : P identity) (marker : Marker) (written : Fin 4 → Bool) :
    (store.overwrite (SuperblockCopies.uniform identity marker) written).Holds P := by
  unfold MarkerStore.overwrite
  split
  · exact h
  · obtain ⟨copies, hstore, hall⟩ := h
    refine ⟨_, rfl, fun k => ?_⟩
    rw [hstore, Option.getD_some]
    by_cases hk : written k
    · simpa [hk, SuperblockCopies.uniform] using hid
    · simpa [hk] using hall k

theorem stoppedCopies_le {s t : SuperblockCopies} {identity : Nat}
    (h : ∀ k, SuperblockCopies.carriesStopped identity (s.copies k) = true →
      SuperblockCopies.carriesStopped identity (t.copies k) = true) :
    s.stoppedCopies identity ≤ t.stoppedCopies identity := by
  unfold SuperblockCopies.stoppedCopies SuperblockCopies.toList
  rw [List.ofFn_eq_map, List.ofFn_eq_map, List.countP_map, List.countP_map]
  exact List.countP_mono_left fun k _ => h k

theorem stopped_uniform {identity other : Nat} (marker : Marker) (hne : identity ≠ other) :
    MarkerStore.stopped (some (SuperblockCopies.uniform identity marker)) other = 0 := by
  show (List.ofFn _).countP _ = 0
  rw [List.ofFn_eq_map, List.countP_map, List.countP_eq_zero]
  intro k _
  simp [SuperblockCopies.uniform, SuperblockCopies.carriesStopped, hne]

/-- A write of one identity adds no stopped copy of another. -/
theorem Holds.stopped_overwrite {P : Nat → Prop} {store : MarkerStore} (h : store.Holds P)
    {identity other : Nat} (hne : identity ≠ other) (marker : Marker) (written : Fin 4 → Bool) :
    (store.overwrite (SuperblockCopies.uniform identity marker) written).stopped other ≤
      store.stopped other := by
  unfold MarkerStore.overwrite
  split
  · exact le_refl _
  · obtain ⟨copies, hstore, -⟩ := h
    rw [hstore, Option.getD_some]
    refine stoppedCopies_le fun k hk => ?_
    by_cases hwritten : written k
    · simp [hwritten, SuperblockCopies.uniform, SuperblockCopies.carriesStopped, hne] at hk
    · simpa [hwritten] using hk

/-- The boot names an identity that two copies carry. -/
theorem Holds.boot {P : Nat → Prop} {store : MarkerStore} (h : store.Holds P)
    {session : Session} (hboot : boot store = some session) :
    (∃ identity, session = .clean identity ∧ P identity ∧ 2 ≤ store.stopped identity) ∨
      ∃ identity, session = .crashed identity ∧ P identity := by
  obtain ⟨copies, hstore, hall⟩ := h
  subst hstore
  have hcarried : ∀ identity, 2 ≤ copies.toList.countP (SuperblockCopies.carries identity) →
      P identity := by
    intro identity hcount
    obtain ⟨copy, hmem, hcopy⟩ := List.countP_pos_iff.mp (Nat.lt_of_lt_of_le Nat.zero_lt_two hcount)
    obtain ⟨k, hk⟩ := List.mem_ofFn.mp hmem
    have hsame : copy.identity = identity := by
      simpa [SuperblockCopies.carries] using hcopy
    rw [← hsame, ← hk]
    exact hall k
  simp only [UvrrCore.boot] at hboot
  split at hboot
  · cases hboot
  · rename_i identity hclass
    obtain ⟨-, hcount, hiff⟩ := SuperblockCopies.classify_eq_some hclass
    exact Or.inl ⟨identity, (Option.some.inj hboot).symm, hcarried _ hcount, hiff.mp rfl⟩
  · rename_i identity hclass
    obtain ⟨-, hcount, -⟩ := SuperblockCopies.classify_eq_some hclass
    exact Or.inr ⟨identity, (Option.some.inj hboot).symm, hcarried _ hcount⟩

end MarkerStore

/-! ### The invariant of a node's lives -/

namespace LifeHistory

/-- The identity of a session, if it has one, is of a kind. -/
def SessionHolds (P : Nat → Prop) : Session → Prop
  | .down | .first | .halted => True
  | .clean identity | .crashed identity | .running identity | .halting identity
  | .draining identity => P identity

/-- Identities are `u32` values wherever they stand. -/
structure Bounded (h : LifeHistory) : Prop where
  store : h.store = none ∨ h.store.Holds (· < u32Bound)
  session : SessionHolds (· < u32Bound) h.session

/-- **An identity is spent.** No copy is older, fewer than two copies are stopped under it, and
the live process is past it. -/
structure Spent (identity : Nat) (h : LifeHistory) : Prop where
  copies : h.store.Holds (identity ≤ ·)
  stopped : h.store.stopped identity < 2
  session : match h.session with
    | .down | .halted => True
    | .first => False
    | .crashed other => identity ≤ other
    | .clean other | .running other | .halting other | .draining other => identity < other
  ran : ∀ other ∈ h.now.ran, identity < other

/-- The latched identity of the live process is on every copy. -/
def Latched (h : LifeHistory) : Prop :=
  match h.session with
  | .running identity | .halting identity | .draining identity =>
    h.now.latched = some identity ∧ h.store.Holds (· = identity)
  | .halted => ∀ identity, h.now.latched = some identity → h.store.Holds (· = identity)
  | .down | .first | .clean _ | .crashed _ => h.now.latched = none

theorem Bounded.commit {h : LifeHistory} (hb : h.Bounded) {identity : Nat}
    (hid : identity < u32Bound) (marker : Marker) (outcome : CommitOutcome)
    {next : LifeHistory → LifeHistory}
    (hnext : ∀ h', h'.Bounded → (next h').Bounded) :
    (h.commit identity marker outcome next).Bounded := by
  have htorn : ∀ written, (h.store.overwrite (SuperblockCopies.uniform identity marker) written =
      none) ∨ (h.store.overwrite (SuperblockCopies.uniform identity marker) written).Holds
        (· < u32Bound) := by
    intro written
    rcases hb.store with hnone | hall
    · unfold MarkerStore.overwrite
      split
      · exact Or.inl hnone
      · refine Or.inr ⟨_, rfl, fun k => ?_⟩
        rw [hnone, Option.getD_none]
        by_cases hk : written k
        · simpa [hk, SuperblockCopies.uniform] using hid
        · simp [hk, SuperblockCopies.uniform]
    · exact Or.inr (hall.overwrite hid marker written)
  cases outcome with
  | done => exact hnext _ ⟨Or.inr (MarkerStore.holds_uniform marker hid), hb.session⟩
  | failed written => exact ⟨htorn written, hb.session⟩
  | crashed written => exact ⟨htorn written, trivial⟩

theorem Bounded.step {h : LifeHistory} (hb : h.Bounded) (event : LifeEvent) :
    (h.step event).Bounded := by
  have hsession := hb.session
  unfold LifeHistory.step
  split
  · split
    · exact hb
    · rename_i session hboot
      refine ⟨hb.store, ?_⟩
      rcases hb.store with hnone | hall
      · rw [hnone] at hboot
        rw [← Option.some.inj hboot]
        trivial
      · rcases hall.boot hboot with ⟨identity, rfl, hid, -⟩ | ⟨identity, rfl, hid⟩
        · exact hid
        · exact hid
  · rename_i genesis outcome _
    exact hb.commit genesis.isLt .joining outcome fun h' hb' => ⟨hb'.store, genesis.isLt⟩
  · rename_i outcome identity hs
    rw [hs] at hsession
    exact hb.commit hsession .restarting outcome fun h' hb' => ⟨hb'.store, hsession⟩
  · split
    · exact hb
    · exact ⟨hb.store, hb.session⟩
  · rename_i witness outcome identity hs
    rw [hs] at hsession
    split
    · exact hb
    · rename_i new hnew
      have hlt := (NodeId.lt_nextLife hsession hnew).2
      exact hb.commit hlt .joining outcome fun h' hb' => ⟨hb'.store, hlt⟩
  · rename_i outcome identity hs
    rw [hs] at hsession
    exact hb.commit hsession .stopping outcome fun h' hb' => ⟨hb'.store, hsession⟩
  · rename_i succeeds identity hs
    rw [hs] at hsession
    split
    · exact ⟨hb.store, hsession⟩
    · exact hb
  · rename_i outcome identity hs
    rw [hs] at hsession
    exact hb.commit hsession .stopped outcome fun h' hb' => ⟨hb'.store, trivial⟩
  · exact hb
  · exact ⟨hb.store, trivial⟩
  · exact hb

/-! ### A spent identity stays spent -/

theorem Spent.endLife {identity : Nat} {h : LifeHistory} (hs : Spent identity h) :
    Spent identity h.endLife :=
  ⟨hs.copies, hs.stopped, trivial, by simp [LifeHistory.endLife, Life.fresh]⟩

theorem Spent.commit {identity other : Nat} {h : LifeHistory} (hs : Spent identity h)
    (hlt : identity < other) (marker : Marker) (outcome : CommitOutcome)
    {next : LifeHistory → LifeHistory}
    (hnext : ∀ h', Spent identity h' → Spent identity (next h')) :
    Spent identity (h.commit other marker outcome next) := by
  have hne : other ≠ identity := Nat.ne_of_gt hlt
  have htorn : ∀ written, Spent identity
      { h with store := h.store.overwrite (SuperblockCopies.uniform other marker) written } :=
    fun written =>
      ⟨hs.copies.overwrite (Nat.le_of_lt hlt) marker written,
        Nat.lt_of_le_of_lt (hs.copies.stopped_overwrite hne marker written) hs.stopped,
        hs.session, hs.ran⟩
  cases outcome with
  | done =>
    refine hnext _ ⟨MarkerStore.holds_uniform marker (Nat.le_of_lt hlt), ?_, hs.session, hs.ran⟩
    show MarkerStore.stopped (some _) identity < 2
    rw [MarkerStore.stopped_uniform marker hne]
    omega
  | failed written => exact htorn written
  | crashed written => exact (htorn written).endLife

theorem Spent.run {identity other : Nat} {h : LifeHistory} (hs : Spent identity h)
    (hlt : identity < other) : Spent identity (run other h) := by
  refine ⟨hs.copies, hs.stopped, hlt, fun third hmem => ?_⟩
  rcases List.mem_append.mp hmem with hmem | hmem
  · exact hs.ran third hmem
  · rw [List.mem_singleton.mp hmem]
    exact hlt

theorem Spent.step {identity : Nat} {h : LifeHistory} (hs : Spent identity h) (hb : h.Bounded)
    (event : LifeEvent) : Spent identity (h.step event) := by
  have hsession := hs.session
  have hbound := hb.session
  unfold LifeHistory.step
  split
  · split
    · exact hs
    · rename_i session hboot
      refine ⟨hs.copies, hs.stopped, ?_, hs.ran⟩
      rcases hs.copies.boot hboot with ⟨other, rfl, hle, hstopped⟩ | ⟨other, rfl, hle⟩
      · rcases Nat.lt_or_eq_of_le hle with hlt | heq
        · exact hlt
        · subst heq
          exact absurd hs.stopped (by omega)
      · exact hle
  · rename_i hfirst
    rw [hfirst] at hsession
    exact hsession.elim
  · rename_i outcome other hc
    rw [hc] at hsession
    exact hs.commit hsession .restarting outcome fun h' hs' => hs'.run hsession
  · rename_i other hc
    rw [hc] at hsession hbound
    split
    · exact hs
    · rename_i pair hpair
      obtain ⟨new, hnew, rfl⟩ := Option.map_eq_some_iff.mp hpair
      have hlt : identity < new :=
        Nat.lt_of_le_of_lt hsession (NodeId.lt_nextLife hbound hnew).1
      refine ⟨hs.copies, hs.stopped, hs.session, fun third hmem => ?_⟩
      rcases List.mem_append.mp hmem with hmem | hmem
      · exact hs.ran third hmem
      · rw [List.mem_singleton.mp hmem]
        exact hlt
  · rename_i witness outcome other hc
    rw [hc] at hsession hbound
    split
    · exact hs
    · rename_i new hnew
      have hlt : identity < new :=
        Nat.lt_of_le_of_lt hsession (NodeId.lt_nextLife hbound hnew).1
      exact hs.commit hlt .joining outcome fun h' hs' => hs'.run hlt
  · rename_i outcome other hc
    rw [hc] at hsession
    exact hs.commit hsession .stopping outcome fun h' hs' =>
      ⟨hs'.copies, hs'.stopped, hsession, hs'.ran⟩
  · rename_i succeeds other hc
    rw [hc] at hsession
    split
    · exact ⟨hs.copies, hs.stopped, hsession, hs.ran⟩
    · exact hs
  · rename_i outcome other hc
    rw [hc] at hsession
    exact hs.commit hsession .stopped outcome fun h' hs' =>
      ⟨hs'.copies, hs'.stopped, trivial, hs'.ran⟩
  · exact hs
  · exact hs.endLife
  · exact hs

/-! ### The end of a life -/

/-- The step ended the life, leaving a store in which every copy carries the latched
identity. -/
def Ended (h h' : LifeHistory) : Prop :=
  ∃ store : MarkerStore, h' = { h with store := store }.endLife ∧
    ∀ identity, h.now.latched = some identity → store.Holds (· = identity)

theorem commit_latched {h : LifeHistory} {identity : Nat} {marker : Marker}
    {outcome : CommitOutcome} {next : LifeHistory → LifeHistory} (hl : h.Latched)
    (hmine : ∀ latched, h.now.latched = some latched → latched = identity ∧
      h.store.Holds (· = latched))
    (hnext : ∀ h', h'.past = h.past → h'.now = h.now → h'.store.Holds (· = identity) →
      (next h').Latched ∧ (next h').past = h'.past)
    (hfailed : ∀ store : MarkerStore, h.Latched →
      (∀ latched, h.now.latched = some latched → store.Holds (· = latched)) →
      ({ h with store := store } : LifeHistory).Latched) :
    (h.commit identity marker outcome next).Latched ∧
      ((h.commit identity marker outcome next).past = h.past ∨
        Ended h (h.commit identity marker outcome next)) := by
  have htorn : ∀ written latched, h.now.latched = some latched →
      (h.store.overwrite (SuperblockCopies.uniform identity marker) written).Holds
        (· = latched) := by
    intro written latched hlatched
    obtain ⟨heq, hholds⟩ := hmine latched hlatched
    exact hholds.overwrite heq.symm marker written
  cases outcome with
  | done =>
    obtain ⟨hlatch, hpast⟩ := hnext { h with store := some (SuperblockCopies.uniform identity marker) }
      rfl rfl (MarkerStore.holds_uniform marker rfl)
    exact ⟨hlatch, Or.inl hpast⟩
  | failed written => exact ⟨hfailed _ hl (htorn written), Or.inl rfl⟩
  | crashed written => exact ⟨rfl, Or.inr ⟨_, rfl, htorn written⟩⟩

/-- A process without a latch has nothing to keep on the copies. -/
theorem latched_none {h : LifeHistory} (hnone : h.now.latched = none) :
    ∀ identity, h.now.latched = some identity → h.store.Holds (· = identity) := by
  intro identity hsome
  rw [hnone] at hsome
  cases hsome

theorem Latched.step {h : LifeHistory} (hl : h.Latched) (event : LifeEvent) :
    (h.step event).Latched ∧ ((h.step event).past = h.past ∨ Ended h (h.step event)) := by
  have hlatched := hl
  have hrefuse : h.Latched ∧ (h.past = h.past ∨ Ended h h) := ⟨hl, Or.inl rfl⟩
  unfold Latched at hlatched
  unfold LifeHistory.step
  split
  · rename_i hs
    rw [hs] at hlatched
    split
    · exact hrefuse
    · rename_i session hboot
      refine ⟨?_, Or.inl rfl⟩
      unfold Latched
      unfold boot at hboot
      split at hboot
      · rw [← Option.some.inj hboot]; exact hlatched
      · split at hboot
        · cases hboot
        · rw [← Option.some.inj hboot]; exact hlatched
        · rw [← Option.some.inj hboot]; exact hlatched
  · rename_i genesis outcome hs
    rw [hs] at hlatched
    refine commit_latched hl (fun l h' => by rw [hlatched] at h'; cases h')
      (fun h' _ _ hstore => ⟨⟨rfl, hstore⟩, rfl⟩) fun store _ _ => ?_
    simpa only [Latched, hs] using hlatched
  · rename_i outcome identity hs
    rw [hs] at hlatched
    refine commit_latched hl (fun l h' => by rw [hlatched] at h'; cases h')
      (fun h' _ _ hstore => ⟨⟨rfl, hstore⟩, rfl⟩) fun store _ _ => ?_
    simpa only [Latched, hs] using hlatched
  · rename_i identity hs
    rw [hs] at hlatched
    split
    · exact hrefuse
    · exact ⟨by simpa only [Latched, hs] using hlatched, Or.inl rfl⟩
  · rename_i witness outcome identity hs
    rw [hs] at hlatched
    split
    · exact hrefuse
    · refine commit_latched hl (fun l h' => by rw [hlatched] at h'; cases h')
        (fun h' _ _ hstore => ⟨⟨rfl, hstore⟩, rfl⟩) fun store _ _ => ?_
      simpa only [Latched, hs] using hlatched
  · rename_i outcome identity hs
    rw [hs] at hlatched
    obtain ⟨hnow, hstore⟩ := hlatched
    refine commit_latched hl (fun l h' => ?_)
      (fun h' _ hn hstore => ⟨⟨hn ▸ hnow, hstore⟩, rfl⟩) fun store _ hkept => ?_
    · rw [hnow] at h'
      cases h'
      exact ⟨rfl, hstore⟩
    · simp only [Latched, hs]
      exact ⟨hnow, hkept _ hnow⟩
  · rename_i succeeds identity hs
    rw [hs] at hlatched
    split
    · exact ⟨hlatched, Or.inl rfl⟩
    · exact hrefuse
  · rename_i outcome identity hs
    rw [hs] at hlatched
    obtain ⟨hnow, hstore⟩ := hlatched
    refine commit_latched hl (fun l h' => ?_)
      (fun h' _ hn hstore => ⟨fun l hlatch => ?_, rfl⟩) fun store _ hkept => ?_
    · rw [hnow] at h'
      cases h'
      exact ⟨rfl, hstore⟩
    · have hl' : h'.now.latched = some l := hlatch
      rw [hn, hnow, Option.some.injEq] at hl'
      exact hl' ▸ hstore
    · simp only [Latched, hs]
      exact ⟨hnow, hkept _ hnow⟩
  · exact hrefuse
  · refine ⟨rfl, Or.inr ⟨h.store, rfl, fun identity hnow => ?_⟩⟩
    split at hlatched
    · exact (Option.some.inj (hlatched.1.symm.trans hnow)) ▸ hlatched.2
    · exact (Option.some.inj (hlatched.1.symm.trans hnow)) ▸ hlatched.2
    · exact (Option.some.inj (hlatched.1.symm.trans hnow)) ▸ hlatched.2
    · exact hlatched identity hnow
    all_goals exact latched_none hlatched identity hnow
  · exact hrefuse

/-! ### Whole histories -/

/-- **What every history keeps.** The identity of each past life that left fewer than two
stopped copies of it is spent. -/
structure Sound (h : LifeHistory) : Prop where
  bounded : h.Bounded
  latched : h.Latched
  spent : ∀ life ∈ h.past, ∀ identity, life.latched = some identity →
    life.stoppedLeft identity < 2 → Spent identity h
  past : h.past.Pairwise fun earlier later =>
    ∀ identity, earlier.latched = some identity → earlier.stoppedLeft identity < 2 →
      identity ∉ later.ran

theorem sound_fresh : fresh.Sound :=
  ⟨⟨Or.inl rfl, trivial⟩, rfl, by simp [fresh], List.Pairwise.nil⟩

/-- A spent identity is none of the live process's. -/
theorem Spent.not_ran {identity : Nat} {h : LifeHistory} (hs : Spent identity h) :
    identity ∉ h.now.ran := fun hmem => Nat.lt_irrefl _ (hs.ran identity hmem)

theorem Sound.step {h : LifeHistory} (hs : h.Sound) (event : LifeEvent) :
    (h.step event).Sound := by
  obtain ⟨hlatched, hpast⟩ := hs.latched.step event
  have hspent : ∀ life ∈ h.past, ∀ identity, life.latched = some identity →
      life.stoppedLeft identity < 2 → Spent identity (h.step event) :=
    fun life hmem identity hl hleft => (hs.spent life hmem identity hl hleft).step hs.bounded event
  refine ⟨hs.bounded.step event, hlatched, ?_, ?_⟩
  · rcases hpast with heq | ⟨store, hend, hstore⟩
    · rw [heq]
      exact hspent
    · intro life hmem identity hl hleft
      have hmem' : life ∈ h.past ++ [{ h.now with left := store }] := by
        rw [hend] at hmem
        exact hmem
      rcases List.mem_append.mp hmem' with hold | hnew
      · exact hspent life hold identity hl hleft
      · rw [List.mem_singleton.mp hnew] at hl hleft
        rw [hend]
        exact ⟨(hstore identity hl).mono fun n hn => Nat.le_of_eq hn.symm, hleft, trivial,
          by simp [endLife, Life.fresh]⟩
  · rcases hpast with heq | ⟨store, hend, -⟩
    · rw [heq]
      exact hs.past
    · rw [hend]
      show (h.past ++ [{ h.now with left := store }]).Pairwise _
      rw [List.pairwise_append]
      refine ⟨hs.past, List.pairwise_singleton _ _, fun earlier hmem later hlater identity hl
        hleft => ?_⟩
      rw [List.mem_singleton.mp hlater]
      exact (hs.spent earlier hmem identity hl hleft).not_ran

theorem sound_run (events : List LifeEvent) : (events.foldl step fresh).Sound := by
  induction events using List.reverseRecOn with
  | nil => exact sound_fresh
  | append_singleton events event ih =>
    rw [List.foldl_append]
    exact ih.step event

/-- **A latched identity is never reused.** -/
theorem latched_identity_never_reused (events : List LifeEvent) :
    (events.foldl step fresh).LatchedNeverReused := by
  have hs := sound_run events
  unfold LatchedNeverReused lives
  rw [List.pairwise_append]
  refine ⟨hs.past, List.pairwise_singleton _ _, fun earlier hmem later hlater identity hl
    hleft => ?_⟩
  rw [List.mem_singleton.mp hlater]
  exact (hs.spent earlier hmem identity hl hleft).not_ran

end LifeHistory

end UvrrCore
