import UvrrCore.Message

/-!
# Progress: the published record of a replica

`ProgressData` is the ten-field record; `Progress` is a record that passes `ProgressData.check`.
As in the source a `Progress` exists only through `Progress.reconstitute`, so its frontiers are
chained, its status agrees with its ballots and its accepted slot lies in the era window.

The transitions (`withCommitted`, `withViewChange`, …) change what they name, advance the
revision by one and refuse on a faulted record.
-/

namespace UvrrCore

inductive Status where
  | normal
  | viewChange
  | restarting
  | joining
  | replaying
deriving DecidableEq, Repr

/-- The two statuses a process boots into. -/
def Status.isBoot : Status → Bool
  | .restarting | .joining => true
  | .normal | .viewChange | .replaying => false

inductive ProgressError where
  | frontierChain
  | frontierRegress
  | statusViewRelation
  | viewSuccessor
  | alreadyFaulted (fault : Fault)
  | eraSlotDiscipline
  | configRegress
  | revisionExhausted
deriving DecidableEq, Repr

structure ProgressData where
  /-- The ballot the replica promises or serves. -/
  current : Ballot
  /-- The last ballot in which the journaled history was selected. -/
  retained : Ballot
  status : Status
  accepted : Nat
  committed : Nat
  applied : Nat
  checkpoint : Nat
  revision : Nat
  config : EraTable
  fault : Option Fault
deriving DecidableEq

namespace ProgressData

/-- `checkpoint ≤ applied ≤ committed ≤ accepted`. -/
def FrontierChain (p : ProgressData) : Prop :=
  p.checkpoint ≤ p.applied ∧ p.applied ≤ p.committed ∧ p.committed ≤ p.accepted

instance (p : ProgressData) : Decidable p.FrontierChain :=
  inferInstanceAs (Decidable (_ ∧ _ ∧ _))

/-- A serving replica serves the ballot it retains; a fenced one is not behind it. -/
def StatusRelation (p : ProgressData) : Prop :=
  match p.status with
  | .normal => p.current = p.retained
  | .viewChange => p.retained ≤ p.current
  | .restarting | .joining | .replaying => True

instance (p : ProgressData) : Decidable p.StatusRelation := by
  unfold StatusRelation
  cases p.status <;> infer_instance

/-- The era of the accepted slot is the current era or the one after it. -/
def EraDiscipline (p : ProgressData) : Prop :=
  match p.config.eraOfSlot p.accepted with
  | none => False
  | some era => era = p.current.era ∨ Era.next p.current.era = some era

instance (p : ProgressData) : Decidable p.EraDiscipline := by
  unfold EraDiscipline
  cases p.config.eraOfSlot p.accepted <;> infer_instance

theorem eraDiscipline_of_eraOfSlot {p : ProgressData} {era : Nat}
    (hslot : p.config.eraOfSlot p.accepted = some era)
    (hera : era = p.current.era ∨ Era.next p.current.era = some era) : p.EraDiscipline := by
  unfold EraDiscipline
  rw [hslot]
  exact hera

def check (p : ProgressData) : Except ProgressError Unit :=
  if ¬p.FrontierChain then .error .frontierChain
  else if ¬p.StatusRelation then .error .statusViewRelation
  else if ¬p.EraDiscipline then .error .eraSlotDiscipline
  else .ok ()

theorem check_eq_ok {p : ProgressData} :
    p.check = .ok () ↔ p.FrontierChain ∧ p.StatusRelation ∧ p.EraDiscipline := by
  unfold check
  by_cases h1 : p.FrontierChain <;> by_cases h2 : p.StatusRelation <;>
    by_cases h3 : p.EraDiscipline <;> simp [h1, h2, h3]

end ProgressData

/-- **A checked progress record.** -/
structure Progress extends ProgressData where
  checked : toProgressData.check = .ok ()

namespace Progress

theorem frontierChain (p : Progress) : p.FrontierChain :=
  (ProgressData.check_eq_ok.mp p.checked).1

theorem statusRelation (p : Progress) : p.StatusRelation :=
  (ProgressData.check_eq_ok.mp p.checked).2.1

theorem eraDiscipline (p : Progress) : p.EraDiscipline :=
  (ProgressData.check_eq_ok.mp p.checked).2.2

theorem committed_le_accepted (p : Progress) : p.committed ≤ p.accepted := p.frontierChain.2.2

theorem applied_le_committed (p : Progress) : p.applied ≤ p.committed := p.frontierChain.2.1

theorem checkpoint_le_applied (p : Progress) : p.checkpoint ≤ p.applied := p.frontierChain.1

theorem current_eq_retained {p : Progress} (h : p.status = .normal) : p.current = p.retained := by
  have hrel := p.statusRelation
  unfold ProgressData.StatusRelation at hrel
  rw [h] at hrel
  exact hrel

/-- The only constructor: the record if it passes its check. -/
def reconstitute (data : ProgressData) : Except ProgressError Progress :=
  match h : data.check with
  | .ok () => .ok { toProgressData := data, checked := h }
  | .error error => .error error

theorem reconstitute_data {data : ProgressData} {p : Progress} (h : reconstitute data = .ok p) :
    p.toProgressData = data := by
  unfold reconstitute at h
  split at h
  · rw [← Except.ok.inj h]
  · cases h

theorem reconstitute_of_check {data : ProgressData} (h : data.check = .ok ()) :
    ∃ p : Progress, reconstitute data = .ok p ∧ p.toProgressData = data := by
  unfold reconstitute
  split
  · exact ⟨_, rfl, rfl⟩
  · rename_i error herror
    rw [h] at herror
    cases herror

/-- The next record: a change, one revision on, checked. A faulted record has no next one. -/
def transition (p : Progress) (change : ProgressData → ProgressData) :
    Except ProgressError Progress :=
  match p.fault with
  | some fault => .error (.alreadyFaulted fault)
  | none =>
    if p.revision + 1 < u64Bound then
      reconstitute { change p.toProgressData with revision := p.revision + 1 }
    else .error .revisionExhausted

theorem transition_data {p p' : Progress} {change : ProgressData → ProgressData}
    (h : p.transition change = .ok p') :
    p'.toProgressData = { change p.toProgressData with revision := p.revision + 1 } ∧
      p.revision + 1 < u64Bound ∧ p.fault = none := by
  unfold transition at h
  split at h
  · cases h
  · rename_i hfault
    split at h
    · rename_i hrev
      exact ⟨reconstitute_data h, hrev, hfault⟩
    · cases h

def withCheckpoint (p : Progress) (checkpoint : Nat) : Except ProgressError Progress :=
  match p.fault with
  | some fault => .error (.alreadyFaulted fault)
  | none =>
    if checkpoint < p.checkpoint then .error .frontierRegress
    else p.transition fun next => { next with checkpoint := checkpoint }

/-- Fence into the target, a legal successor of the current ballot. -/
def withViewChange (p : Progress) (target : Ballot) : Except ProgressError Progress :=
  match p.fault with
  | some fault => .error (.alreadyFaulted fault)
  | none =>
    if !p.current.isLegalSuccessor target then .error .viewSuccessor
    else p.transition fun next => { next with current := target, status := .viewChange }

def withStatus (p : Progress) (status : Status) : Except ProgressError Progress :=
  p.transition fun next => { next with status := status }

def withFault (p : Progress) (fault : Fault) : Except ProgressError Progress :=
  p.transition fun next => { next with fault := some fault }

end Progress

end UvrrCore
