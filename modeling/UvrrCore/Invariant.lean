import UvrrCore.Progress

/-!
# The transition rules

Every candidate record is judged against the published one before it replaces it. `legal`
answers the fault a violation earns: a frontier that moves back (rule 1), a ballot that is
neither a legal successor nor reached by a grounded nomination walk (rule 2), a retained ballot
changed by an input that selects no history (rule 3), a revision that is not the next one
(rule 4), a faulted record (rule 5), an accepted slot outside the era window (rule 6), and a
header slot that does not fit the message's kind (rule 7).
-/

namespace UvrrCore

/-- What drove a transition, as far as the rules look at it. -/
inductive InputKind where
  | peerMessage (tag : Tag) (slot : Nat)
  | clientRequest
  | tick
  | stabilityConfirmed
  | applied
  | checkpointed
  | reconfiguration
  | admin
deriving DecidableEq, Repr

/-- What the header slot of a message kind is for. -/
inductive HeaderSlotRole where
  | operation
  | frontier
  | absent
deriving DecidableEq, Repr

def HeaderSlotRole.admits (role : HeaderSlotRole) (slot : Nat) : Bool :=
  match role with
  | .operation => slot != Slot.none
  | .frontier => true
  | .absent => slot == Slot.none

def headerSlotRole : Tag → HeaderSlotRole
  | .prepare | .prepareOk | .fuse | .fuseOk => .operation
  | .commit | .doViewChange | .startView | .getState | .newState | .commitBatch => .frontier
  | .startViewChange | .plannedViewChange | .reincarnation | .gossipRequest => .absent

/-! ### The rules one by one -/

def rule1FrontiersViolated (old new : ProgressData) : Bool :=
  if ¬new.FrontierChain then true
  else if new.committed < old.committed ∨ new.applied < old.applied ∨
      new.checkpoint < old.checkpoint then true
  else decide (new.accepted < old.accepted) && new.retained == old.retained

/-- Every era above `start`, for `count` eras, was established at or below the frontier. -/
def erasGrounded (config : EraTable) (committed : Nat) : (start count : Nat) → Bool
  | _, 0 => true
  | start, count + 1 =>
    match Era.next start with
    | none => false
    | some next =>
      match config.record next with
      | none => false
      | some record =>
        decide (record.establishedBy ≤ committed) && erasGrounded config committed next count

/-- A jump over several eras by committed nominations: the record serves the ballot it reached,
and every era passed is established at or below its committed frontier. -/
def isGroundedNominationWalk (old new : ProgressData) : Bool :=
  if new.status ≠ .normal ∨ new.retained ≠ new.current then false
  else if new.current.era ≤ old.current.era ∨ new.current.view ≤ old.current.view then false
  else if new.committed - old.committed < new.current.era - old.current.era then false
  else erasGrounded new.config new.committed old.current.era (new.current.era - old.current.era)

def rule2ViewSuccessionViolated (old new : ProgressData) : Bool :=
  if new.current = old.current then false
  else if old.current.isLegalSuccessor new.current then false
  else !isGroundedNominationWalk old new

/-- The kinds of input that select a history. -/
def InputKind.reselects : InputKind → Bool
  | .peerMessage tag _ =>
    match tag with
    | .doViewChange | .startView | .newState => true
    | .prepare | .prepareOk | .commit | .startViewChange | .plannedViewChange | .getState
    | .reincarnation | .fuse | .fuseOk | .commitBatch | .gossipRequest => false
  | .clientRequest | .tick | .stabilityConfirmed | .applied | .checkpointed | .reconfiguration
  | .admin => false

def rule3RetainedViolated (old new : ProgressData) (input : InputKind) : Bool :=
  if new.retained = old.retained then false
  else if new.status = .normal ∧ new.retained = new.current then false
  else !input.reselects

def rule4RevisionViolated (old new : ProgressData) : Bool :=
  !(decide (old.revision + 1 < u64Bound) && new.revision == old.revision + 1)

def rule6EraSlotViolated (new : ProgressData) : Bool := decide ¬new.EraDiscipline

def rule7HeaderSlotViolated : InputKind → Bool
  | .peerMessage tag slot => !(headerSlotRole tag).admits slot
  | .clientRequest | .tick | .stabilityConfirmed | .applied | .checkpointed | .reconfiguration
  | .admin => false

/-- **The gate.** The fault the step from `old` to `new` earns, or `none`. -/
def legal (old new : ProgressData) (input : InputKind) : Option Fault :=
  match old.fault with
  | some fault => some fault
  | none =>
    if rule1FrontiersViolated old new || rule2ViewSuccessionViolated old new ||
        rule3RetainedViolated old new input || rule4RevisionViolated old new ||
        rule6EraSlotViolated new || rule7HeaderSlotViolated input then
      some .illegalTransition
    else none

/-! ### What the gate lets through -/

theorem legal_eq_none_iff {old new : ProgressData} {input : InputKind} :
    legal old new input = none ↔
      old.fault = none ∧ rule1FrontiersViolated old new = false ∧
        rule2ViewSuccessionViolated old new = false ∧
        rule3RetainedViolated old new input = false ∧ rule4RevisionViolated old new = false ∧
        rule6EraSlotViolated new = false ∧ rule7HeaderSlotViolated input = false := by
  unfold legal
  cases old.fault with
  | some fault => simp
  | none =>
    simp only [true_and, ite_eq_right_iff, reduceCtorEq, imp_false, Bool.not_eq_true,
      Bool.or_eq_false_iff, and_assoc]

/-- The ballot of a legal step never moves back. -/
theorem current_le_of_legal {old new : ProgressData} {input : InputKind}
    (h : legal old new input = none) : old.current ≤ new.current := by
  obtain ⟨-, -, h2, -⟩ := legal_eq_none_iff.mp h
  unfold rule2ViewSuccessionViolated at h2
  split at h2
  · rename_i heq
    exact le_of_eq heq.symm
  · split at h2
    · rename_i hsucc
      exact le_of_lt (Ballot.lt_of_isLegalSuccessor hsucc)
    · rw [Bool.not_eq_false'] at h2
      unfold isGroundedNominationWalk at h2
      split at h2
      · cases h2
      · split at h2
        · cases h2
        · rename_i hera
          rw [Ballot.le_def]
          omega

theorem committed_le_of_legal {old new : ProgressData} {input : InputKind}
    (h : legal old new input = none) : old.committed ≤ new.committed := by
  obtain ⟨-, h1, -⟩ := legal_eq_none_iff.mp h
  unfold rule1FrontiersViolated at h1
  split at h1
  · cases h1
  · split at h1
    · cases h1
    · omega

theorem checkpoint_le_of_legal {old new : ProgressData} {input : InputKind}
    (h : legal old new input = none) : old.checkpoint ≤ new.checkpoint := by
  obtain ⟨-, h1, -⟩ := legal_eq_none_iff.mp h
  unfold rule1FrontiersViolated at h1
  split at h1
  · cases h1
  · split at h1
    · cases h1
    · omega

/-- The accepted frontier moves back only when another history is retained. -/
theorem accepted_le_of_legal {old new : ProgressData} {input : InputKind}
    (h : legal old new input = none) (hret : new.retained = old.retained) :
    old.accepted ≤ new.accepted := by
  obtain ⟨-, h1, -⟩ := legal_eq_none_iff.mp h
  unfold rule1FrontiersViolated at h1
  split at h1
  · cases h1
  · split at h1
    · cases h1
    · rw [Bool.and_eq_false_iff, decide_eq_false_iff_not, hret] at h1
      simpa using h1

end UvrrCore
