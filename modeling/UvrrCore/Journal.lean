import UvrrCore.Configuration

/-!
# Journals

The journal keeps entries at consecutive slots. A replica reads it through its view (`accepted`,
`get`, `retained`) and changes it in two ways only: `accept` appends at the frontier,
`installSuffix` replaces everything from a cut on. Each either applies whole or leaves the
journal untouched with a named refusal.

`LawfulJournal` is the contract a replica relies on, stated over what `get` reads back.
-/

namespace UvrrCore

/-- What an entry carries: a client operation or a system operation. -/
inductive Payload where
  | operation (id : OperationId) (payload : List UInt8)
  | system (op : SystemOperation)
deriving DecidableEq, Repr

structure LogEntry where
  slot : Nat
  era : Nat
  payload : Payload
deriving DecidableEq, Repr

def Payload.isSystem : Payload → Bool
  | .system _ => true
  | .operation _ _ => false

/-! ### Packed sizes

The suffix budget of a view change counts packed bytes. -/

mutual

def SystemOperation.packedLen : SystemOperation → Nat
  | .void | .double | .halve => 1
  | .init order => 1 + 4 + 4 * order.length
  | .increment _ | .decrement _ | .leave _ => 1 + 4
  | .join _ _ | .nominate _ _ => 1 + 4 + 4
  | .batch ops => 1 + 4 + SystemOperation.packedLenList ops

def SystemOperation.packedLenList : List SystemOperation → Nat
  | [] => 0
  | op :: ops => op.packedLen + SystemOperation.packedLenList ops

end

def Payload.packedLen : Payload → Nat
  | .operation _ payload => 1 + 16 + (4 + payload.length)
  | .system op => 1 + op.packedLen

def LogEntry.packedLen (entry : LogEntry) : Nat := 8 + 4 + entry.payload.packedLen

/-! ### The interface -/

inductive JournalError where
  | nonContiguous (expected got : Nat)
  | slotOccupied (slot : Nat)
  | belowRetention (slot first : Nat)
  | slotExhausted
  | emptySuffix
deriving DecidableEq, Repr

class Journal (J : Type) where
  /-- The frontier: the last slot journaled. -/
  accepted : J → Option Nat
  get : J → Nat → Option LogEntry
  /-- The window physically held. An empty window has its first slot above its last. -/
  retained : J → Nat × Nat
  accept : J → List LogEntry → Except JournalError J
  installSuffix : J → Nat → List LogEntry → Except JournalError J

/-- Entries at consecutive slots, the first of them at `slot`. -/
def ContiguousFrom (slot : Nat) : List LogEntry → Prop
  | [] => True
  | entry :: rest => entry.slot = slot ∧ ContiguousFrom (slot + 1) rest

/-- The entry a list offers at a slot. -/
def entryAt (entries : List LogEntry) (slot : Nat) : Option LogEntry :=
  entries.find? fun entry => entry.slot == slot

/-! ### Runs of entries -/

theorem contiguousFrom_append {slot : Nat} {xs ys : List LogEntry} :
    ContiguousFrom slot (xs ++ ys) ↔
      ContiguousFrom slot xs ∧ ContiguousFrom (slot + xs.length) ys := by
  induction xs generalizing slot with
  | nil => simp [ContiguousFrom]
  | cons x xs ih =>
    simp only [List.cons_append, ContiguousFrom, ih, List.length_cons, and_assoc]
    rw [show slot + 1 + xs.length = slot + (xs.length + 1) by omega]

theorem ContiguousFrom.mem_slot {slot : Nat} {xs : List LogEntry} (h : ContiguousFrom slot xs)
    {entry : LogEntry} (hmem : entry ∈ xs) :
    slot ≤ entry.slot ∧ entry.slot < slot + xs.length := by
  induction xs generalizing slot with
  | nil => cases hmem
  | cons x xs ih =>
    obtain ⟨hx, hrest⟩ := h
    rcases List.mem_cons.mp hmem with rfl | hmem
    · rw [List.length_cons]
      omega
    · have := ih hrest hmem
      rw [List.length_cons]
      omega

theorem entryAt_slot {xs : List LogEntry} {slot : Nat} {entry : LogEntry}
    (h : entryAt xs slot = some entry) : entry.slot = slot := by
  have := List.find?_some h
  simpa using this

theorem entryAt_append (xs ys : List LogEntry) (slot : Nat) :
    entryAt (xs ++ ys) slot = (entryAt xs slot).or (entryAt ys slot) := List.find?_append

theorem ContiguousFrom.entryAt_eq {start : Nat} {xs : List LogEntry}
    (h : ContiguousFrom start xs) (slot : Nat) :
    entryAt xs slot = if slot < start then none else xs[slot - start]? := by
  induction xs generalizing start with
  | nil => simp [entryAt]
  | cons x xs ih =>
    obtain ⟨hx, hrest⟩ := h
    have htail := ih hrest
    unfold entryAt at htail ⊢
    rw [List.find?_cons, hx]
    by_cases heq : start = slot
    · subst heq
      simp
    · rw [beq_eq_false_iff_ne.mpr heq]
      simp only [htail]
      by_cases hlt : slot < start
      · rw [if_pos hlt, if_pos (by omega)]
      · rw [if_neg hlt, if_neg (by omega)]
        rw [show slot - start = slot - (start + 1) + 1 by omega, List.getElem?_cons_succ]

/-- A run offers exactly the slots it spans. -/
theorem ContiguousFrom.entryAt_isSome {start : Nat} {xs : List LogEntry}
    (h : ContiguousFrom start xs) (slot : Nat) :
    (entryAt xs slot).isSome ↔ start ≤ slot ∧ slot < start + xs.length := by
  rw [h.entryAt_eq]
  split
  · simp
    omega
  · rw [Option.isSome_iff_ne_none, ne_eq, List.getElem?_eq_none_iff]
    omega

theorem ContiguousFrom.getLast?_slot {start : Nat} {xs : List LogEntry}
    (h : ContiguousFrom start xs) {last : LogEntry} (hlast : xs.getLast? = some last) :
    last.slot + 1 = start + xs.length := by
  induction xs generalizing start with
  | nil => cases hlast
  | cons x xs ih =>
    obtain ⟨hx, hrest⟩ := h
    cases xs with
    | nil =>
      rw [List.getLast?_singleton, Option.some.injEq] at hlast
      rw [← hlast, hx, List.length_singleton]
    | cons y ys =>
      rw [List.getLast?_cons_cons] at hlast
      have := ih hrest hlast
      rw [List.length_cons]
      omega

/-- **The contract.** Appending continues the frontier, installing takes over from the
suffix's first slot, and below the change every slot reads as before. -/
class LawfulJournal (J : Type) [Journal J] : Prop where
  get_slot : ∀ {j : J} {slot entry}, Journal.get j slot = some entry → entry.slot = slot
  get_le : ∀ {j : J} {slot entry}, Journal.get j slot = some entry →
    ∃ frontier, Journal.accepted j = some frontier ∧ slot ≤ frontier
  retained_last : ∀ {j : J} {frontier}, Journal.accepted j = some frontier →
    (Journal.retained j).2 = frontier
  get_isSome : ∀ {j : J} {slot frontier}, Journal.accepted j = some frontier →
    (Journal.retained j).1 ≤ slot → slot ≤ frontier → (Journal.get j slot).isSome
  get_lt_first : ∀ {j : J} {slot}, slot < (Journal.retained j).1 → Journal.get j slot = none
  accept_nil : ∀ {j : J}, Journal.accept j [] = .ok j
  accept_ok : ∀ {j j' : J} {frontier entry rest}, Journal.accepted j = some frontier →
    Journal.accept j (entry :: rest) = .ok j' →
    ContiguousFrom (frontier + 1) (entry :: rest) ∧
    Journal.accepted j' = some (frontier + (entry :: rest).length) ∧
    (Journal.retained j').1 = (Journal.retained j).1 ∧
    ∀ slot, Journal.get j' slot = if slot ≤ frontier then Journal.get j slot
      else entryAt (entry :: rest) slot
  installSuffix_ok : ∀ {j j' : J} {frontier cut suffix}, Journal.accepted j = some frontier →
    Journal.installSuffix j cut suffix = .ok j' →
    (Journal.retained j).1 ≤ cut ∧ suffix ≠ [] ∧
    ContiguousFrom (min cut (frontier + 1)) suffix ∧
    Journal.accepted j' = some (min cut (frontier + 1) + suffix.length - 1) ∧
    (Journal.retained j').1 = (Journal.retained j).1 ∧
    ∀ slot, Journal.get j' slot = if slot < min cut (frontier + 1) then Journal.get j slot
      else entryAt suffix slot
  installSuffix_fresh : ∀ {j j' : J} {cut suffix}, Journal.accepted j = none →
    Journal.installSuffix j cut suffix = .ok j' →
    suffix ≠ [] ∧ ContiguousFrom cut suffix ∧
    Journal.accepted j' = some (cut + suffix.length - 1) ∧
    (Journal.retained j').1 = cut ∧
    ∀ slot, Journal.get j' slot = entryAt suffix slot

end UvrrCore
