import Mathlib.Algebra.Group.Nat.Even
import Mathlib.Data.Fintype.Basic
import Mathlib.Data.Finset.Basic

/-!
# Observation of published progress

A snapshot is published under a sequence counter: even means stable, odd that a write is in
progress. A writer claims the counter by a compare-exchange, stores the snapshot, and releases the
counter two above what it claimed. A reader copies the snapshot out between two loads of the
counter and tries again unless both are even and equal.

Threads interleave here one memory access at a time, and neither the store nor the copy is atomic:
each takes the snapshot word by word, in any order. Any number of threads may write, as the source
allows; a compare-exchange may fail without reason. The counter wraps.

What was published, and since when a reader reads, is kept beside the state (`History`) and read by
no thread.

## Main results

* `Reached.inv`: one writer at a time, and the cell is whole under an even counter.
* `published_whole`: a release leaves its writer's snapshot in the cell, whole.
* `unobserved`: left out of a run, threads that only observe change nothing for the others.
* `returned_whole`: a read that returns has copied the snapshot that was published when it began
  and was published still when it ended, unless 2^63 writes were claimed meanwhile.
-/

namespace UvrrCore

namespace Observation

/-! ### The threads -/

/-- Where a thread stands. A snapshot is its words. -/
inductive Phase (W V : Type) where
  | idle
  /-- In the claim loop of a write, with the counter it has seen. -/
  | claiming (value : W → V) (seen : UInt64)
  /-- Storing under the counter it claimed; these words are still to come. -/
  | storing (value : W → V) (claimed : UInt64) (todo : Finset W)
  /-- In the loop of a read. -/
  | reading
  /-- Copying under the counter it loaded; so much is copied. -/
  | copying (before : UInt64) (got : W → Option V)

/-- One memory access of one thread, or the call that leads to the first. -/
inductive Event (Tid W V : Type) where
  | write (t : Tid) (value : W → V)
  /-- The compare-exchange, which may fail spuriously. -/
  | claim (t : Tid) (spurious : Bool)
  | store (t : Tid) (w : W)
  | release (t : Tid)
  | read (t : Tid)
  | load (t : Tid)
  | copy (t : Tid) (w : W)
  | confirm (t : Tid)

/-- What an access means to an observer. -/
inductive Note (Tid W V : Type) where
  | silent
  | claimed
  | published (value : W → V)
  | loaded (t : Tid)
  | returned (t : Tid) (value : W → Option V)

structure State (Tid W V : Type) where
  seq : UInt64
  cell : W → V
  threads : Tid → Phase W V

variable {Tid W V : Type}

/-- A fresh observation, its initial snapshot under sequence 0. -/
def new (initial : W → V) : State Tid W V := ⟨0, initial, fun _ => .idle⟩

section

variable [DecidableEq Tid]

namespace State

def goto (s : State Tid W V) (t : Tid) (phase : Phase W V) : State Tid W V :=
  { s with threads := Function.update s.threads t phase }

variable [DecidableEq W] [Fintype W]

/-- **One access.** Nothing where the thread does not stand in front of it. -/
def step (s : State Tid W V) : Event Tid W V → Option (State Tid W V × Note Tid W V)
  | .write t value =>
    match s.threads t with
    | .idle => some (s.goto t (.claiming value s.seq), .silent)
    | _ => none
  | .claim t spurious =>
    match s.threads t with
    | .claiming value seen =>
      if seen % 2 = 1 then some (s.goto t (.claiming value s.seq), .silent)
      else if s.seq = seen ∧ spurious = false then
        some ({ s with seq := seen + 1 }.goto t (.storing value seen Finset.univ), .claimed)
      else some (s.goto t (.claiming value s.seq), .silent)
    | _ => none
  | .store t w =>
    match s.threads t with
    | .storing value claimed todo =>
      if w ∈ todo then
        some ({ s with cell := Function.update s.cell w (value w) }.goto t
          (.storing value claimed (todo.erase w)), .silent)
      else none
    | _ => none
  | .release t =>
    match s.threads t with
    | .storing value claimed todo =>
      if todo = ∅ then some ({ s with seq := claimed + 2 }.goto t .idle, .published value)
      else none
    | _ => none
  | .read t =>
    match s.threads t with
    | .idle => some (s.goto t .reading, .silent)
    | _ => none
  | .load t =>
    match s.threads t with
    | .reading =>
      if s.seq % 2 = 1 then some (s, .silent)
      else some (s.goto t (.copying s.seq fun _ => none), .loaded t)
    | _ => none
  | .copy t w =>
    match s.threads t with
    | .copying before got =>
      if got w = none then
        some (s.goto t (.copying before (Function.update got w (some (s.cell w)))), .silent)
      else none
    | _ => none
  | .confirm t =>
    match s.threads t with
    | .copying before got =>
      if ∀ w, (got w).isSome then
        if before = s.seq then some (s.goto t .idle, .returned t got)
        else some (s.goto t .reading, .silent)
      else none
    | _ => none

/-- Accesses in order, each where its thread stands in front of it, with what they mean. -/
def run (s : State Tid W V) :
    List (Event Tid W V) → Option (State Tid W V × List (Event Tid W V × Note Tid W V))
  | [] => some (s, [])
  | e :: es => (s.step e).bind fun (s', note) => (run s' es).map fun (s'', notes) =>
    (s'', (e, note) :: notes)

end State

/-! ### What an observer keeps -/

structure History (Tid W V : Type) where
  /-- How many writes were claimed. -/
  claims : Nat
  /-- The snapshot published last. -/
  stable : W → V
  /-- The two above as a thread loaded the counter last. -/
  begun : Tid → Nat × (W → V)

variable [DecidableEq W] [Fintype W]

def History.after (h : History Tid W V) : Note Tid W V → History Tid W V
  | .silent | .returned _ _ => h
  | .claimed => { h with claims := h.claims + 1 }
  | .published value => { h with stable := value }
  | .loaded t => { h with begun := Function.update h.begun t (h.claims, h.stable) }

/-- **What any interleaving leads to.** -/
inductive Reached (initial : W → V) : State Tid W V → History Tid W V → Prop where
  | start : Reached initial (new initial) ⟨0, initial, fun _ => (0, initial)⟩
  | step {s s' : State Tid W V} {h : History Tid W V} {e : Event Tid W V} {note : Note Tid W V}
      (before : Reached initial s h) (stepped : s.step e = some (s', note)) :
      Reached initial s' (h.after note)

end

/-! ### The invariant -/

def Storing (s : State Tid W V) (t : Tid) : Prop :=
  ∃ value claimed todo, s.threads t = .storing value claimed todo

/-- **One writer at a time, and what it has stored.** A reader that no claim overtook reads the
published snapshot. -/
structure Inv (s : State Tid W V) (h : History Tid W V) : Prop where
  alone : ∀ t t', Storing s t → Storing s t' → t = t'
  quiet : (∀ t, ¬Storing s t) → s.seq.toNat = 2 * h.claims % 2 ^ 64 ∧ s.cell = h.stable
  busy : ∀ t value claimed todo, s.threads t = .storing value claimed todo →
    s.seq = claimed + 1 ∧ (claimed.toNat + 2) % 2 ^ 64 = 2 * h.claims % 2 ^ 64 ∧
      (∀ w ∈ todo, s.cell w = h.stable w) ∧ ∀ w, w ∉ todo → s.cell w = value w
  reader : ∀ t before got, s.threads t = .copying before got →
    before.toNat = 2 * (h.begun t).1 % 2 ^ 64 ∧ (h.begun t).1 ≤ h.claims ∧
      ((h.begun t).1 = h.claims → (∀ t', ¬Storing s t') ∧ h.stable = (h.begun t).2 ∧
        ∀ w x, got w = some x → x = h.stable w)

variable {s s' : State Tid W V} {h : History Tid W V} {t t' : Tid} {phase : Phase W V}

theorem not_storing (hphase : ∀ value claimed todo, s.threads t ≠ .storing value claimed todo) :
    ¬Storing s t := by
  rintro ⟨value, claimed, todo, heq⟩
  exact hphase value claimed todo heq

theorem odd_iff (seq : UInt64) : seq % 2 = 1 ↔ seq.toNat % 2 = 1 := by
  rw [← UInt64.toNat_inj, UInt64.toNat_mod]
  rfl

/-- Under an even counter nobody stores. -/
theorem Inv.quiet_of_even (hinv : Inv s h) (heven : ¬s.seq % 2 = 1) (t : Tid) : ¬Storing s t := by
  rintro ⟨value, claimed, todo, hstoring⟩
  obtain ⟨hseq, hclaims, -⟩ := hinv.busy t value claimed todo hstoring
  rw [odd_iff, hseq, UInt64.toNat_add] at heven
  have hlt := claimed.toNat_lt
  change ¬(claimed.toNat + 1) % 2 ^ 64 % 2 = 1 at heven
  omega

variable [DecidableEq Tid]

theorem goto_self : (s.goto t phase).threads t = phase := Function.update_self ..

theorem goto_other (h : t' ≠ t) : (s.goto t phase).threads t' = s.threads t' :=
  Function.update_of_ne h ..

/-- A thread that goes on without storing leaves the writer as it was. -/
theorem storing_goto (hphase : ∀ value claimed todo, phase ≠ .storing value claimed todo)
    (hbefore : ¬Storing s t) : Storing (s.goto t phase) t' ↔ Storing s t' := by
  unfold Storing
  by_cases h : t' = t
  · subst h
    rw [goto_self]
    constructor
    · rintro ⟨value, claimed, todo, heq⟩
      exact absurd heq (hphase value claimed todo)
    · exact fun hstoring => absurd hstoring hbefore
  · rw [goto_other h]

/-- **A step of one thread's own**: the counter, the cell and what is published stay. -/
theorem Inv.goto (hinv : Inv s h) (hbefore : ¬Storing s t)
    (hphase : ∀ value claimed todo, phase ≠ .storing value claimed todo)
    (hreader : ∀ before got, phase = .copying before got →
      before.toNat = 2 * (h.begun t).1 % 2 ^ 64 ∧ (h.begun t).1 ≤ h.claims ∧
        ((h.begun t).1 = h.claims → (∀ t', ¬Storing s t') ∧ h.stable = (h.begun t).2 ∧
          ∀ w x, got w = some x → x = h.stable w)) :
    Inv (s.goto t phase) h := by
  have hsame : ∀ t', Storing (s.goto t phase) t' ↔ Storing s t' :=
    fun t' => storing_goto hphase hbefore
  refine ⟨fun t₁ t₂ h₁ h₂ => hinv.alone t₁ t₂ ((hsame t₁).mp h₁) ((hsame t₂).mp h₂),
    fun hquiet => hinv.quiet fun t' h' => hquiet t' ((hsame t').mpr h'), ?_, ?_⟩
  · intro t' value claimed todo hstoring
    by_cases heq : t' = t
    · subst heq
      rw [goto_self] at hstoring
      exact absurd hstoring (hphase value claimed todo)
    · rw [goto_other heq] at hstoring
      exact hinv.busy t' value claimed todo hstoring
  · intro t' before got hcopying
    have hnone : (∀ t', ¬Storing s t') → ∀ t', ¬Storing (s.goto t phase) t' :=
      fun hquiet t' h' => hquiet t' ((hsame t').mp h')
    by_cases heq : t' = t
    · subst heq
      rw [goto_self] at hcopying
      obtain ⟨hbefore', hle, hsince⟩ := hreader before got hcopying
      exact ⟨hbefore', hle, fun hclaims => ⟨hnone (hsince hclaims).1, (hsince hclaims).2⟩⟩
    · rw [goto_other heq] at hcopying
      obtain ⟨hbefore', hle, hsince⟩ := hinv.reader t' before got hcopying
      exact ⟨hbefore', hle, fun hclaims => ⟨hnone (hsince hclaims).1, (hsince hclaims).2⟩⟩

/-- The counter loaded by a thread that was not copying. -/
theorem Inv.loaded (hinv : Inv s h) (hreading : s.threads t = .reading) :
    Inv s { h with begun := Function.update h.begun t (h.claims, h.stable) } := by
  refine ⟨hinv.alone, hinv.quiet, hinv.busy, ?_⟩
  intro t' before got hcopying
  have hne : t' ≠ t := by
    rintro rfl
    rw [hreading] at hcopying
    cases hcopying
  simp only [Function.update_of_ne hne]
  exact hinv.reader t' before got hcopying

section

variable [DecidableEq W] [Fintype W]

omit [DecidableEq W] in
/-- **The claim**: the counter was even, so the cell is whole and every reader is overtaken. -/
theorem Inv.claim (hinv : Inv s h) {value : W → V} {seen : UInt64} (heven : ¬s.seq % 2 = 1)
    (hseen : s.seq = seen) :
    Inv ({ s with seq := seen + 1 }.goto t (.storing value seen Finset.univ))
      { h with claims := h.claims + 1 } := by
  have hquiet := hinv.quiet_of_even heven
  obtain ⟨hseq, hcell⟩ := hinv.quiet hquiet
  have honly : ∀ t', Storing ({ s with seq := seen + 1 }.goto t
      (.storing value seen Finset.univ)) t' → t' = t := by
    rintro t' ⟨value', claimed, todo, hstoring⟩
    by_contra hne
    rw [goto_other hne] at hstoring
    exact hquiet t' ⟨value', claimed, todo, hstoring⟩
  refine ⟨fun t₁ t₂ h₁ h₂ => (honly t₁ h₁).trans (honly t₂ h₂).symm, fun hnone => ?_, ?_, ?_⟩
  · exact absurd ⟨value, seen, Finset.univ, goto_self⟩ (hnone t)
  · intro t' value' claimed todo hstoring
    obtain rfl := honly t' ⟨value', claimed, todo, hstoring⟩
    rw [goto_self] at hstoring
    cases hstoring
    refine ⟨rfl, ?_, fun w _ => congrFun hcell w, fun w hw => absurd (Finset.mem_univ w) hw⟩
    rw [← hseen, hseq]
    change (2 * h.claims % 2 ^ 64 + 2) % 2 ^ 64 = 2 * (h.claims + 1) % 2 ^ 64
    omega
  · intro t' before got hcopying
    by_cases heq : t' = t
    · subst heq
      rw [goto_self] at hcopying
      cases hcopying
    · rw [goto_other heq] at hcopying
      obtain ⟨hbefore, hle, -⟩ := hinv.reader t' before got hcopying
      refine ⟨hbefore, Nat.le_succ_of_le hle, fun hclaims => ?_⟩
      change (h.begun t').1 = h.claims + 1 at hclaims
      omega

omit [DecidableEq Tid] [DecidableEq W] [Fintype W] in
/-- While a thread stores, no reader is free of being overtaken. -/
theorem Inv.overtaken (hinv : Inv s h) (hstoring : Storing s t) {before : UInt64}
    {got : W → Option V} (hcopying : s.threads t' = .copying before got) :
    (h.begun t').1 ≠ h.claims :=
  fun hclaims => ((hinv.reader t' before got hcopying).2.2 hclaims).1 t hstoring

omit [Fintype W] in
theorem Inv.store (hinv : Inv s h) {value : W → V} {claimed : UInt64} {todo : Finset W} {w : W}
    (hstoring : s.threads t = .storing value claimed todo) :
    Inv ({ s with cell := Function.update s.cell w (value w) }.goto t
      (.storing value claimed (todo.erase w))) h := by
  have hmine : Storing s t := ⟨value, claimed, todo, hstoring⟩
  have honly : ∀ t', Storing ({ s with cell := Function.update s.cell w (value w) }.goto t
      (.storing value claimed (todo.erase w))) t' → t' = t := by
    rintro t' ⟨value', claimed', todo', hother⟩
    by_contra hne
    rw [goto_other hne] at hother
    exact hne (hinv.alone t' t ⟨value', claimed', todo', hother⟩ hmine)
  refine ⟨fun t₁ t₂ h₁ h₂ => (honly t₁ h₁).trans (honly t₂ h₂).symm, fun hnone => ?_, ?_, ?_⟩
  · exact absurd ⟨value, claimed, todo.erase w, goto_self⟩ (hnone t)
  · intro t' value' claimed' todo' hother
    obtain rfl := honly t' ⟨value', claimed', todo', hother⟩
    rw [goto_self] at hother
    cases hother
    obtain ⟨hseq, hclaims, hold, hnew⟩ := hinv.busy t' value claimed todo hstoring
    refine ⟨hseq, hclaims, fun w' hw' => ?_, fun w' hw' => ?_⟩
    · obtain ⟨hne, hmem⟩ := Finset.mem_erase.mp hw'
      exact (Function.update_of_ne hne ..).trans (hold w' hmem)
    · by_cases heq : w' = w
      · rw [heq]
        exact Function.update_self ..
      · exact (Function.update_of_ne heq ..).trans
          (hnew w' fun hmem => hw' (Finset.mem_erase.mpr ⟨heq, hmem⟩))
  · intro t' before got hcopying
    by_cases heq : t' = t
    · subst heq
      rw [goto_self] at hcopying
      cases hcopying
    · rw [goto_other heq] at hcopying
      obtain ⟨hbefore, hle, -⟩ := hinv.reader t' before got hcopying
      exact ⟨hbefore, hle, fun hclaims => absurd hclaims (hinv.overtaken hmine hcopying)⟩

omit [DecidableEq W] [Fintype W] in
/-- **The release**: all words are stored. -/
theorem Inv.release (hinv : Inv s h) {value : W → V} {claimed : UInt64}
    (hstoring : s.threads t = .storing value claimed ∅) :
    Inv ({ s with seq := claimed + 2 }.goto t .idle) { h with stable := value } := by
  have hmine : Storing s t := ⟨value, claimed, ∅, hstoring⟩
  obtain ⟨-, hclaims, -, hnew⟩ := hinv.busy t value claimed ∅ hstoring
  have hnone : ∀ t', ¬Storing ({ s with seq := claimed + 2 }.goto t .idle) t' := by
    rintro t' ⟨value', claimed', todo', hother⟩
    by_cases heq : t' = t
    · subst heq
      rw [goto_self] at hother
      cases hother
    · rw [goto_other heq] at hother
      exact heq (hinv.alone t' t ⟨value', claimed', todo', hother⟩ hmine)
  refine ⟨fun t₁ _ h₁ _ => absurd h₁ (hnone t₁), fun _ => ⟨?_, ?_⟩, ?_, ?_⟩
  · change (claimed + 2).toNat = 2 * h.claims % 2 ^ 64
    rw [← hclaims, UInt64.toNat_add]
    rfl
  · exact funext fun w => hnew w (Finset.notMem_empty w)
  · intro t' value' claimed' todo' hother
    exact absurd ⟨value', claimed', todo', hother⟩ (hnone t')
  · intro t' before got hcopying
    by_cases heq : t' = t
    · subst heq
      rw [goto_self] at hcopying
      cases hcopying
    · rw [goto_other heq] at hcopying
      obtain ⟨hbefore, hle, -⟩ := hinv.reader t' before got hcopying
      exact ⟨hbefore, hle, fun hclaims' => absurd hclaims' (hinv.overtaken hmine hcopying)⟩

/-- **Each access keeps the invariant.** -/
theorem Inv.step (hinv : Inv s h) {e : Event Tid W V} {note : Note Tid W V}
    (hstep : s.step e = some (s', note)) : Inv s' (h.after note) := by
  cases e with
  | write t value =>
    simp only [State.step] at hstep
    split at hstep
    · rename_i hidle
      cases hstep
      exact hinv.goto (not_storing (by simp [hidle])) (by simp) (by simp)
    · cases hstep
  | claim t spurious =>
    simp only [State.step] at hstep
    split at hstep
    · rename_i value seen hclaiming
      have hnot : ¬Storing s t := not_storing (by simp [hclaiming])
      split at hstep
      · cases hstep
        exact hinv.goto hnot (by simp) (by simp)
      · rename_i heven
        split at hstep
        · rename_i hclaim
          cases hstep
          exact hinv.claim (hclaim.1 ▸ heven) hclaim.1
        · cases hstep
          exact hinv.goto hnot (by simp) (by simp)
    · cases hstep
  | store t w =>
    simp only [State.step] at hstep
    split at hstep
    · rename_i value claimed todo hstoring
      split at hstep
      · cases hstep
        exact hinv.store hstoring
      · cases hstep
    · cases hstep
  | release t =>
    simp only [State.step] at hstep
    split at hstep
    · rename_i value claimed todo hstoring
      split at hstep
      · rename_i hdone
        subst hdone
        cases hstep
        exact hinv.release hstoring
      · cases hstep
    · cases hstep
  | read t =>
    simp only [State.step] at hstep
    split at hstep
    · rename_i hidle
      cases hstep
      exact hinv.goto (not_storing (by simp [hidle])) (by simp) (by simp)
    · cases hstep
  | load t =>
    simp only [State.step] at hstep
    split at hstep
    · rename_i hreading
      split at hstep
      · cases hstep
        exact hinv
      · rename_i heven
        cases hstep
        have hquiet := hinv.quiet_of_even heven
        refine (hinv.loaded hreading).goto (not_storing (by simp [hreading])) (by simp) ?_
        intro before got hphase
        cases hphase
        simp only [Function.update_self]
        exact ⟨(hinv.quiet hquiet).1, Nat.le_refl _, fun _ => ⟨hquiet, trivial, by simp⟩⟩
    · cases hstep
  | copy t w =>
    simp only [State.step] at hstep
    split at hstep
    · rename_i before got hcopying
      split at hstep
      · cases hstep
        refine hinv.goto (not_storing (by simp [hcopying])) (by simp) ?_
        intro before' got' hphase
        cases hphase
        obtain ⟨hbefore, hle, hsince⟩ := hinv.reader t before got hcopying
        refine ⟨hbefore, hle, fun hclaims => ?_⟩
        obtain ⟨hquiet, hstable, hgot⟩ := hsince hclaims
        refine ⟨hquiet, hstable, fun w' x hx => ?_⟩
        by_cases heq : w' = w
        · subst heq
          rw [Function.update_self] at hx
          rw [← Option.some.inj hx, (hinv.quiet hquiet).2]
        · rw [Function.update_of_ne heq] at hx
          exact hgot w' x hx
      · cases hstep
    · cases hstep
  | confirm t =>
    simp only [State.step] at hstep
    split at hstep
    · rename_i before got hcopying
      split at hstep
      · split at hstep
        · cases hstep
          exact hinv.goto (not_storing (by simp [hcopying])) (by simp) (by simp)
        · cases hstep
          exact hinv.goto (not_storing (by simp [hcopying])) (by simp) (by simp)
      · cases hstep
    · cases hstep

theorem Reached.inv {initial : W → V} (hreached : Reached initial s h) : Inv s h := by
  induction hreached with
  | start =>
    have hnone : ∀ t : Tid, ¬Storing (new initial) t := fun t => not_storing (by simp [new])
    exact ⟨fun t _ ht _ => absurd ht (hnone t), fun _ => ⟨rfl, rfl⟩,
      fun t value claimed todo hstoring => absurd ⟨value, claimed, todo, hstoring⟩ (hnone t),
      fun t before got hcopying => by simp [new] at hcopying⟩
  | step _ hstep ih => exact ih.step hstep

/-- A read returns from a copy of all words, under the counter it was made under. -/
theorem returned_cases {e : Event Tid W V} {got : W → Option V}
    (hstep : s.step e = some (s', .returned t got)) :
    ∃ before, s.threads t = .copying before got ∧ (∀ w, (got w).isSome) ∧ before = s.seq := by
  cases e with
  | confirm t' =>
    simp only [State.step] at hstep
    split at hstep
    · rename_i before got' hcopying
      split at hstep
      · rename_i hall
        split at hstep
        · rename_i hsame
          cases hstep
          exact ⟨before, hcopying, hall, hsame⟩
        · cases hstep
      · cases hstep
    · cases hstep
  | _ =>
    simp only [State.step] at hstep
    repeat' split at hstep
    all_goals cases hstep

/-- **A read that returns is whole.** It has copied the snapshot that was published when it loaded
the counter, and that snapshot is published still: no torn and no stale copy, unless the counter
came around. -/
theorem returned_whole {initial : W → V} (hreached : Reached initial s h) {e : Event Tid W V}
    {got : W → Option V} (hstep : s.step e = some (s', .returned t got))
    (hclaims : h.claims < (h.begun t).1 + 2 ^ 63) :
    got = (fun w => some (h.stable w)) ∧ (h.begun t).2 = h.stable := by
  have hinv := hreached.inv
  obtain ⟨before, hcopying, hall, hsame⟩ := returned_cases hstep
  obtain ⟨hbefore, hle, hsince⟩ := hinv.reader t before got hcopying
  have heven : ¬s.seq % 2 = 1 := by
    rw [odd_iff, ← hsame, hbefore]
    omega
  obtain ⟨hseq, -⟩ := hinv.quiet (hinv.quiet_of_even heven)
  rw [← hsame, hbefore] at hseq
  -- The counter is what it was, and it has not come around: nobody claimed it in between.
  have hnone : (h.begun t).1 = h.claims := by omega
  obtain ⟨-, hstable, hgot⟩ := hsince hnone
  refine ⟨funext fun w => ?_, hstable.symm⟩
  obtain ⟨x, hx⟩ := Option.isSome_iff_exists.mp (hall w)
  rw [hx, hgot w x hx]

/-- A reader that began between two words of a write waits for it, and gets all of it. -/
theorem returned_whole_waited :
    ∃ (s : State Bool Bool Nat) (h : History Bool Bool Nat) (got : Bool → Option Nat),
      Reached (fun _ => 0) s h ∧ got = (fun w => some (h.stable w)) ∧
        (h.begun false).2 = h.stable := by
  have hrun := (((((((((@Reached.start Bool Bool Nat _ _ _ fun _ => 0).step
    (e := .write true fun w => cond w 7 8) rfl).step (e := .claim true false) rfl).step
    (e := .store true true) rfl).step (e := .read false) rfl).step (e := .load false) rfl).step
    (e := .store true false) rfl).step (e := .release true) rfl).step (e := .load false) rfl)
  have hcopied := (hrun.step (e := .copy false true) rfl).step (e := .copy false false) rfl
  exact ⟨_, _, _, hcopied, returned_whole hcopied (e := .confirm false) rfl (by decide)⟩

theorem published_cases {e : Event Tid W V} {value : W → V}
    (hstep : s.step e = some (s', .published value)) :
    ∃ t claimed, s.threads t = .storing value claimed ∅ ∧ s'.seq = claimed + 2 := by
  cases e with
  | release t =>
    simp only [State.step] at hstep
    split at hstep
    · rename_i value' claimed todo hstoring
      split at hstep
      · rename_i hdone
        cases hstep
        exact ⟨t, claimed, hdone ▸ hstoring, rfl⟩
      · cases hstep
    · cases hstep
  | _ =>
    simp only [State.step] at hstep
    repeat' split at hstep
    all_goals cases hstep

/-- **A release publishes its writer's snapshot.** However the claims of several writers interleave,
what stands in the cell then is that snapshot, whole, and nobody stores any more. -/
theorem published_whole {initial : W → V} (hreached : Reached initial s h) {e : Event Tid W V}
    {value : W → V} (hstep : s.step e = some (s', .published value)) :
    s'.cell = value ∧ s'.seq.toNat = 2 * h.claims % 2 ^ 64 ∧ ∀ t, ¬Storing s' t := by
  have hinv : Inv s' { h with stable := value } := (hreached.step hstep).inv
  have heven : ¬s'.seq % 2 = 1 := by
    obtain ⟨t, claimed, hstoring, hseq⟩ := published_cases hstep
    obtain ⟨-, hclaims, -⟩ := hreached.inv.busy t value claimed ∅ hstoring
    rw [odd_iff, hseq, UInt64.toNat_add]
    change ¬(claimed.toNat + 2) % 2 ^ 64 % 2 = 1
    omega
  have hquiet := hinv.quiet_of_even heven
  exact ⟨(hinv.quiet hquiet).2, (hinv.quiet hquiet).1, hquiet⟩

/-- Two writers contend for the claim: the second gets it once the first has released. -/
theorem published_whole_second :
    ∃ (s' : State Bool Bool Nat), s'.cell = (fun w => cond w 9 10) ∧ s'.seq.toNat = 4 % 2 ^ 64 ∧
      ∀ t, ¬Storing s' t := by
  have hfirst := (((((((@Reached.start Bool Bool Nat _ _ _ fun _ => 0).step
    (e := .write true fun w => cond w 7 8) rfl).step (e := .write false fun w => cond w 9 10)
    rfl).step (e := .claim true false) rfl).step (e := .store true true) rfl).step
    (e := .claim false false) rfl).step (e := .store true false) rfl).step (e := .release true) rfl
  have hsecond := (((hfirst.step (e := .claim false false) rfl).step
    (e := .claim false false) rfl).step (e := .store false false) rfl).step
    (e := .store false true) rfl
  exact ⟨_, published_whole hsecond (e := .release false) rfl⟩

end

/-! ### Observing delays nobody -/

def Event.thread : Event Tid W V → Tid
  | .write t _ | .claim t _ | .store t _ | .release t
  | .read t | .load t | .copy t _ | .confirm t => t

/-- An access of a read. -/
def Event.observes : Event Tid W V → Bool
  | .write _ _ | .claim _ _ | .store _ _ | .release _ => false
  | .read _ | .load _ | .copy _ _ | .confirm _ => true

/-- The same counter and cell, and the same standing of every thread outside `P`. -/
structure Alike (P : Tid → Prop) (s₁ s₂ : State Tid W V) : Prop where
  seq : s₁.seq = s₂.seq
  cell : s₁.cell = s₂.cell
  threads : ∀ t, ¬P t → s₁.threads t = s₂.threads t

section

variable {P : Tid → Prop} {s₁ s₁' s₂ : State Tid W V} {e : Event Tid W V} {note : Note Tid W V}

theorem Alike.goto_left (h : Alike P s₁ s₂) (ht : P t) : Alike P (s₁.goto t phase) s₂ := by
  refine ⟨h.seq, h.cell, fun t' ht' => ?_⟩
  have hne : t' ≠ t := fun heq => ht' (heq.symm ▸ ht)
  rw [goto_other hne]
  exact h.threads t' ht'

variable [DecidableEq W] [Fintype W]

/-- An access of a read moves its own thread alone. -/
theorem step_observes (hobserves : e.observes) (hstep : s₁.step e = some (s₁', note)) :
    s₁' = s₁ ∨ ∃ phase, s₁' = s₁.goto e.thread phase := by
  cases e with
  | read t | load t | copy t w | confirm t =>
    simp only [State.step] at hstep
    repeat' split at hstep
    all_goals cases hstep
    all_goals first | exact .inl rfl | exact .inr ⟨_, rfl⟩
  | _ => cases hobserves

/-- An access sees the counter, the cell and its own thread, and moves that thread alone. -/
theorem step_threads {seq : UInt64} {cell : W → V} {threads threads' : Tid → Phase W V}
    (hown : threads e.thread = threads' e.thread) :
    State.step ⟨seq, cell, threads'⟩ e = (State.step ⟨seq, cell, threads⟩ e).map fun (s, note) =>
      (⟨s.seq, s.cell, Function.update threads' e.thread (s.threads e.thread)⟩, note) := by
  cases e with
  | write t value | claim t spurious | store t w | release t | read t | load t | copy t w
  | confirm t =>
    simp only [Event.thread] at hown
    simp only [State.step, hown]
    cases hphase : threads' t
    all_goals simp only [Option.map_none]
    all_goals try split_ifs
    all_goals simp [State.goto, Event.thread, hown]

theorem step_own (hstep : s₁.step e = some (s₁', note)) :
    s₁'.threads = Function.update s₁.threads e.thread (s₁'.threads e.thread) := by
  obtain ⟨seq, cell, threads⟩ := s₁
  have hself : State.step ⟨seq, cell, threads⟩ e = _ := step_threads (Eq.refl (threads e.thread))
  rw [hstep, Option.map_some, Option.some_inj, Prod.mk_inj] at hself
  exact congrArg State.threads hself.1

theorem Alike.step (h : Alike P s₁ s₂) (ht : ¬P e.thread)
    (hstep : s₁.step e = some (s₁', note)) :
    ∃ s₂', s₂.step e = some (s₂', note) ∧ Alike P s₁' s₂' := by
  have hmoved := step_own hstep
  obtain ⟨seq, cell, threads⟩ := s₁
  obtain ⟨seq₂, cell₂, threads₂⟩ := s₂
  obtain rfl : seq = seq₂ := h.seq
  obtain rfl : cell = cell₂ := h.cell
  have hthreads : ∀ t, ¬P t → threads t = threads₂ t := h.threads
  have hthere : State.step ⟨seq, cell, threads₂⟩ e = _ := step_threads (hthreads _ ht)
  rw [hstep, Option.map_some] at hthere
  refine ⟨_, hthere, rfl, rfl, fun t htP => ?_⟩
  by_cases heq : t = e.thread
  · subst heq
    simp only [Function.update_self]
  · rw [hmoved]
    simpa only [Function.update_of_ne heq] using hthreads t htP

/-- **Observing delays nobody.** Leave out of a run every access of some threads that only observe:
the rest still runs, sees what it saw and leaves the counter, the cell and all other threads where
they were. -/
theorem unobserved [DecidablePred P] {es : List (Event Tid W V)}
    {notes : List (Event Tid W V × Note Tid W V)}
    (hobserves : ∀ e ∈ es, P e.thread → e.observes) (halike : Alike P s₁ s₂)
    (hrun : s₁.run es = some (s₁', notes)) :
    ∃ s₂', s₂.run (es.filter fun e => ¬P e.thread) =
        some (s₂', notes.filter fun note => ¬P note.1.thread) ∧ Alike P s₁' s₂' := by
  induction es generalizing s₁ s₂ notes with
  | nil =>
    cases hrun
    exact ⟨s₂, rfl, halike⟩
  | cons e es ih =>
    simp only [State.run, Option.bind_eq_some_iff, Option.map_eq_some_iff, Prod.exists] at hrun
    obtain ⟨mid, note, hstep, s', notes', hrest, heq⟩ := hrun
    obtain ⟨rfl, rfl⟩ := Prod.mk_inj.mp heq
    have hlater : ∀ e' ∈ es, P e'.thread → e'.observes :=
      fun e' he' => hobserves e' (List.mem_cons_of_mem e he')
    by_cases ht : P e.thread
    · have hmid : Alike P mid s₂ := by
        obtain rfl | ⟨phase, rfl⟩ := step_observes (hobserves e List.mem_cons_self ht) hstep
        · exact halike
        · exact halike.goto_left ht
      simpa [ht] using ih hlater hmid hrest
    · obtain ⟨mid₂, hstep₂, hmid⟩ := halike.step ht hstep
      obtain ⟨s₂', hrun₂, halike'⟩ := ih hlater hmid hrest
      refine ⟨s₂', ?_, halike'⟩
      simp only [List.filter_cons, ht, not_false_eq_true, decide_true, if_true, State.run, hstep₂,
        hrun₂, Option.bind_some, Option.map_some]

/-- A reader between two words of a write, left out. -/
theorem unobserved_beside_write :
    ∃ s₂' : State Bool Bool Nat, (new fun _ => 0).run
        [.write true fun w => cond w 7 8, .claim true false, .store true true, .store true false,
          .release true] = some (s₂', [(.write true fun w => cond w 7 8, .silent),
        (.claim true false, .claimed), (.store true true, .silent), (.store true false, .silent),
        (.release true, .published fun w => cond w 7 8)]) := by
  have hrun : (new fun _ => 0 : State Bool Bool Nat).run [.write true fun w => cond w 7 8,
      .claim true false, .read false, .store true true, .load false, .store true false,
      .release true, .load false] = some (_, _) := rfl
  obtain ⟨s₂', hrun₂, -⟩ := unobserved (P := fun t => t = false) (by simp [Event.thread,
    Event.observes]) ⟨rfl, rfl, fun _ _ => rfl⟩ hrun
  exact ⟨s₂', hrun₂⟩

end

end Observation

end UvrrCore
