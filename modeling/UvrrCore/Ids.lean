import Mathlib.Algebra.Order.BigOperators.Group.Finset
import Mathlib.Algebra.BigOperators.Ring.Finset
import Mathlib.Data.Fintype.Pi
import Mathlib.Data.List.Sort
import Mathlib.Data.List.Dedup
import Mathlib.Tactic.Ring
import Mathlib.Logic.Relation

/-!
# Identifiers of the replication core

Positions, eras, views and node identities, with the bounded successors the core computes
with: a checked addition answers `none` at the end of its space instead of wrapping.

* A slot is a `u64`, an era and a view are `u32`; all three are natural numbers here and their
  bounds live in `Slot.next`, `Era.next` and `View.next`. Position 0 is the sentinel
  `Slot.none`, not an operation.
* A node identity is a `u32` that packs two 16-bit halves, the system identity above the crash
  counter; `NodeId.nextLife` bumps the lower half.
* `Ballot` is the pair of an era and a view under the lexicographic order.
  `Ballot.isLegalSuccessor` is the stricter relation of the view machinery: the view
  advances and the era stays or steps by one.
-/

namespace UvrrCore

/-- The first number beyond `u16`. -/
abbrev u16Bound : Nat := 65536

/-- The first number beyond `u32`. -/
abbrev u32Bound : Nat := 4294967296

/-- The first number beyond `u64`. -/
abbrev u64Bound : Nat := 18446744073709551616

/-! ### Node identities -/

def NodeId.new (system crash : Nat) : Nat := system * u16Bound + crash

/-- The upper half; `none` when it is zero. -/
def NodeId.systemId (n : Nat) : Option Nat :=
  if n / u16Bound % u16Bound = 0 then none else some (n / u16Bound % u16Bound)

/-- The lower half; `none` when it is zero. -/
def NodeId.crashCounter (n : Nat) : Option Nat :=
  if n % u16Bound = 0 then none else some (n % u16Bound)

/-- The identity of the next life: the same system, the crash counter one higher. `none` when
the identity is unlawful or the counter is spent. -/
def NodeId.nextLife (n : Nat) : Option Nat :=
  match NodeId.systemId n with
  | none => none
  | some system =>
    match NodeId.crashCounter n with
    | none => none
    | some counter =>
      if counter + 1 < u16Bound then some (NodeId.new system (counter + 1)) else none

/-! ### Operations -/

structure OperationId where
  msb : Nat
  lsb : Nat
deriving DecidableEq, Repr

/-- A client operation: its identity and its opaque payload. -/
structure Operation where
  id : OperationId
  payload : List UInt8
deriving DecidableEq, Repr

/-! ### Eras, views and slots -/

abbrev Era.initial : Nat := 0

abbrev View.initial : Nat := 0

abbrev Slot.none : Nat := 0

def Era.next (e : Nat) : Option Nat := if e + 1 < u32Bound then some (e + 1) else .none

def View.next (v : Nat) : Option Nat := if v + 1 < u32Bound then some (v + 1) else .none

def Slot.next (s : Nat) : Option Nat := if s + 1 < u64Bound then some (s + 1) else .none

def Slot.prev (s : Nat) : Option Nat := if s = 0 then .none else some (s - 1)

@[simp] theorem Era.next_eq_some {e e' : Nat} :
    Era.next e = some e' ↔ e + 1 < u32Bound ∧ e' = e + 1 := by
  unfold Era.next
  split <;> simp <;> omega

@[simp] theorem View.next_eq_some {v v' : Nat} :
    View.next v = some v' ↔ v + 1 < u32Bound ∧ v' = v + 1 := by
  unfold View.next
  split <;> simp <;> omega

@[simp] theorem Slot.next_eq_some {s t : Nat} :
    Slot.next s = some t ↔ s + 1 < u64Bound ∧ t = s + 1 := by
  unfold Slot.next
  split <;> simp <;> omega

@[simp] theorem Slot.next_eq_none {s : Nat} : Slot.next s = .none ↔ u64Bound ≤ s + 1 := by
  unfold Slot.next
  split <;> simp <;> omega

@[simp] theorem Slot.prev_eq_some {s t : Nat} : Slot.prev s = some t ↔ s = t + 1 := by
  unfold Slot.prev
  split <;> simp <;> omega

/-! ### Ballots -/

/-- **A ballot.** The era first, the view second: the order of the declaration is the order of
the comparison. -/
@[ext]
structure Ballot where
  era : Nat
  view : Nat
deriving DecidableEq, Repr

namespace Ballot

def initial : Ballot := { era := Era.initial, view := View.initial }

instance : LT Ballot := ⟨fun a b => a.era < b.era ∨ (a.era = b.era ∧ a.view < b.view)⟩

instance : LE Ballot := ⟨fun a b => a.era < b.era ∨ (a.era = b.era ∧ a.view ≤ b.view)⟩

theorem lt_def (a b : Ballot) :
    a < b ↔ a.era < b.era ∨ (a.era = b.era ∧ a.view < b.view) := Iff.rfl

theorem le_def (a b : Ballot) :
    a ≤ b ↔ a.era < b.era ∨ (a.era = b.era ∧ a.view ≤ b.view) := Iff.rfl

instance decLT (a b : Ballot) : Decidable (a < b) :=
  inferInstanceAs (Decidable (a.era < b.era ∨ (a.era = b.era ∧ a.view < b.view)))

instance decLE (a b : Ballot) : Decidable (a ≤ b) :=
  inferInstanceAs (Decidable (a.era < b.era ∨ (a.era = b.era ∧ a.view ≤ b.view)))

/-- The lexicographic order is total. -/
instance : LinearOrder Ballot where
  le_refl a := by rw [le_def]; omega
  le_trans a b c := by simp only [le_def]; omega
  lt_iff_le_not_ge a b := by simp only [le_def, lt_def]; omega
  le_antisymm a b := by
    intro hab hba
    simp only [le_def] at hab hba
    ext <;> omega
  le_total a b := by simp only [le_def]; omega
  toDecidableLE := decLE
  toDecidableLT := decLT

/-- The next view of the same era. -/
def nextInEra (b : Ballot) : Option Ballot :=
  (View.next b.view).map fun view => { era := b.era, view := view }

/-- One era and one view on. -/
def nextInNextEra (b : Ballot) : Option Ballot :=
  match Era.next b.era, View.next b.view with
  | some era, some view => some { era := era, view := view }
  | _, _ => none

/-- The step the view machinery may take: the view advances, the era stays or steps by one.
At the end of the era space only the unchanged era is left. -/
def isLegalSuccessor (b next : Ballot) : Bool :=
  decide (b.view < next.view) &&
    match Era.next b.era with
    | some eraPlusOne => next.era == b.era || next.era == eraPlusOne
    | none => next.era == b.era

theorem lt_of_isLegalSuccessor {b next : Ballot} (h : b.isLegalSuccessor next = true) :
    b < next := by
  unfold isLegalSuccessor at h
  rw [Bool.and_eq_true, decide_eq_true_iff] at h
  obtain ⟨hview, hera⟩ := h
  rw [lt_def]
  cases hnext : Era.next b.era with
  | none =>
    rw [hnext] at hera
    simp only [beq_iff_eq] at hera
    omega
  | some e =>
    rw [hnext] at hera
    simp only [Bool.or_eq_true, beq_iff_eq] at hera
    rw [Era.next_eq_some] at hnext
    omega

end Ballot

/-- The least view above `current` that selects position `index` among `members`. -/
def nextViewSelecting (current index members : Nat) : Option Nat :=
  if members = 0 ∨ members ≤ index then none
  else
    match View.next current with
    | none => none
    | some floor =>
      let residue := floor % members
      let gap := if residue ≤ index then index - residue else members - (residue - index)
      if floor + gap < u32Bound then some (floor + gap) else none

/-- Why a node is out of service. A fault never clears within a life. -/
inductive Fault where
  | illegalTransition
  | indeterminatePersistence
  | quorumObligation
  | progressJournalDivergence
  | hostDeclared
deriving DecidableEq, Repr

end UvrrCore
