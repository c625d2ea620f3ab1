import UvrrCore.Wire

/-!
# The relay ledger

The datagrams a host released and no response has answered yet. The host relays them as they are;
the ledger mints nothing.

An entry leaves the ledger in three ways: a response answers it, the core releases it again, or the
bound drops it as the oldest one.
-/

namespace UvrrCore

namespace Demo

/-- One datagram the core released. -/
structure Datagram where
  /-- The member it was addressed to. -/
  recipient : Nat
  era : Nat
  view : Nat
  slot : Nat
  tag : Tag
  bytes : List UInt8
deriving DecidableEq, Repr

/-- The ballot a datagram was authorised at. -/
def Datagram.ballot (datagram : Datagram) : Ballot where
  era := datagram.era
  view := datagram.view

/-- A message as a datagram to a peer. -/
def Datagram.of (recipient : Nat) (message : Message) : Datagram where
  recipient := recipient
  era := message.header.view.era
  view := message.header.view.view
  slot := message.header.slot
  tag := message.tag
  bytes := WireMessage.pack
    { header := { tag := message.tag, view := message.header.view, slot := message.header.slot }
      body := message.body }

/-- The same peer, ballot, slot and tag. -/
def Datagram.repeats (datagram entry : Datagram) : Bool :=
  entry.recipient == datagram.recipient && entry.era == datagram.era &&
    entry.view == datagram.view && entry.slot == datagram.slot && entry.tag == datagram.tag

/-- The tags whose repeats the relay carries. -/
def relayable (tag : Tag) : Bool :=
  match tag with
  | .prepare | .commit | .startViewChange | .doViewChange => true
  | _ => false

/-- An inbound datagram retires an entry. -/
def answers (entry : Datagram) (sender era view slot : Nat) (tag : Tag) : Bool :=
  if entry.recipient ≠ sender ∨ entry.era ≠ era then false
  else
    match entry.tag with
    | .prepare => tag == .prepareOk && view == entry.view && decide (entry.slot ≤ slot)
    | .commit => tag == .prepareOk && view == entry.view && decide (entry.slot < slot)
    | .startViewChange => tag == .startViewChange && view == entry.view
    | .doViewChange => tag == .startView && decide (entry.view ≤ view)
    | _ => false

/-- **The ledger**, in the order of the releases. -/
structure Ledger where
  unacked : List Datagram
  bound : Nat
  /-- How many entries the bound has dropped. -/
  dropped : Nat
  room : 0 < bound

/-- The default bound. -/
abbrev defaultBound : Nat := 256

namespace Ledger

def withBound (bound : Nat) : Ledger where
  unacked := []
  bound := max bound 1
  dropped := 0
  room := Nat.lt_of_lt_of_le Nat.zero_lt_one (Nat.le_max_right _ _)

def new : Ledger := withBound defaultBound

/-- The oldest entry dropped. -/
def dropOldest (l : Ledger) : Ledger :=
  { l with unacked := l.unacked.drop 1, dropped := l.dropped + 1 }

/-- One datagram remembered. A repeat replaces the entry that stands; the bound makes room for a
new one. -/
def record (l : Ledger) (datagram : Datagram) : Ledger :=
  if relayable datagram.tag = false then l
  else
    match l.unacked.findIdx? datagram.repeats with
    | some index => { l with unacked := l.unacked.set index datagram }
    | none =>
      let kept := if l.bound ≤ l.unacked.length then l.dropOldest else l
      { kept with unacked := kept.unacked ++ [datagram] }

/-- One inbound datagram: every entry it answers is retired. -/
def answered (l : Ledger) (sender era view slot : Nat) (tag : Tag) : Ledger :=
  if relayable tag = false ∧ tag ≠ .prepareOk ∧ tag ≠ .startView then l
  else
    { l with unacked := l.unacked.filter fun entry => !answers entry sender era view slot tag }

/-- The relay set of a ballot. -/
def relay (l : Ledger) (era view : Nat) : List Datagram :=
  l.unacked.filter fun entry => entry.era == era && entry.view == view

/-! ### What leaves the ledger -/

/-- Datagrams recorded one after the other. -/
def recordAll (l : Ledger) (datagrams : List Datagram) : Ledger := datagrams.foldl record l

/-- The entry the bound drops for the next new one. -/
def Evicts (l : Ledger) (entry : Datagram) : Prop :=
  l.bound ≤ l.unacked.length ∧ l.unacked.head? = some entry

/-- **Why a recording displaces an entry**: one of the datagrams repeats it, or the bound drops it
when it is the oldest. -/
def Displaces (l : Ledger) (datagrams : List Datagram) (entry : Datagram) : Prop :=
  ∃ front datagram back, datagrams = front ++ datagram :: back ∧
    (datagram.repeats entry = true ∨ (l.recordAll front).Evicts entry)

variable {l : Ledger} {datagram entry : Datagram}

theorem recordAll_append (l : Ledger) (front back : List Datagram) :
    l.recordAll (front ++ back) = (l.recordAll front).recordAll back :=
  List.foldl_append

/-- **What answers an entry.** -/
theorem answers_rules {sender era view slot : Nat} {tag : Tag} :
    answers entry sender era view slot tag = true ↔
      entry.recipient = sender ∧ entry.era = era ∧
        (entry.tag = .prepare ∧ tag = .prepareOk ∧ view = entry.view ∧ entry.slot ≤ slot ∨
          entry.tag = .commit ∧ tag = .prepareOk ∧ view = entry.view ∧ entry.slot < slot ∨
          entry.tag = .startViewChange ∧ tag = .startViewChange ∧ view = entry.view ∨
          entry.tag = .doViewChange ∧ tag = .startView ∧ entry.view ≤ view) := by
  unfold answers
  by_cases hother : entry.recipient ≠ sender ∨ entry.era ≠ era
  · rw [if_pos hother]
    refine ⟨fun h => (by cases h), fun h => ?_⟩
    rcases hother with hother | hother
    · exact absurd h.1 hother
    · exact absurd h.2.1 hother
  · rw [if_neg hother]
    rw [not_or, not_not, not_not] at hother
    cases entry.tag <;> simp [hother, and_assoc]

/-- Only responses answer anything. -/
theorem answers_tag {sender era view slot : Nat} {tag : Tag}
    (h : answers entry sender era view slot tag = true) :
    tag = .prepareOk ∨ tag = .startViewChange ∨ tag = .startView := by
  obtain ⟨-, -, hprepare | hcommit | hfence | hreport⟩ := answers_rules.mp h
  · exact .inl hprepare.2.1
  · exact .inl hcommit.2.1
  · exact .inr (.inl hfence.2.1)
  · exact .inr (.inr hreport.2.1)

/-- The entries an inbound datagram leaves, whatever its tag is. -/
theorem answered_unacked (l : Ledger) (sender era view slot : Nat) (tag : Tag) :
    (l.answered sender era view slot tag).unacked =
      l.unacked.filter fun entry => !answers entry sender era view slot tag := by
  unfold answered
  split
  · rename_i hother
    refine (List.filter_eq_self.mpr fun entry _ => ?_).symm
    rw [Bool.not_eq_true', Bool.eq_false_iff]
    intro hanswers
    rcases answers_tag hanswers with rfl | rfl | rfl
    · exact hother.2.1 rfl
    · cases hother.1
    · exact hother.2.2 rfl
  · rfl

theorem mem_answered {sender era view slot : Nat} {tag : Tag} :
    entry ∈ (l.answered sender era view slot tag).unacked ↔
      entry ∈ l.unacked ∧ answers entry sender era view slot tag = false := by
  rw [answered_unacked, List.mem_filter, Bool.not_eq_true']

/-- **One recording**: an entry stands, is repeated, or is the oldest of a full ledger. -/
theorem record_keeps (datagram : Datagram) (h : entry ∈ l.unacked) :
    entry ∈ (l.record datagram).unacked ∨ datagram.repeats entry = true ∨ l.Evicts entry := by
  unfold record
  split
  · exact .inl h
  · split
    · rename_i index hindex
      obtain ⟨hlt, hrepeats, -⟩ := List.findIdx?_eq_some_iff_getElem.mp hindex
      obtain ⟨place, hplace, rfl⟩ := List.getElem_of_mem h
      by_cases hat : index = place
      · subst hat
        exact .inr (.inl hrepeats)
      · refine .inl (List.mem_of_getElem (i := place) (h := by simpa using hplace) ?_)
        rw [List.getElem_set_of_ne hat]
    · by_cases hfull : l.bound ≤ l.unacked.length
      · rw [if_pos hfull]
        cases hunacked : l.unacked with
        | nil =>
          rw [hunacked] at h
          cases h
        | cons oldest rest =>
          rw [hunacked] at h
          rcases List.mem_cons.mp h with rfl | hrest
          · exact .inr (.inr ⟨hfull, by rw [hunacked]; rfl⟩)
          · refine .inl (List.mem_append_left _ ?_)
            show entry ∈ l.unacked.drop 1
            rw [hunacked]
            exact hrest
      · rw [if_neg hfull]
        exact .inl (List.mem_append_left _ h)

/-- **What recordings displace.** -/
theorem recordAll_keeps {datagrams : List Datagram} (h : entry ∈ l.unacked) :
    entry ∈ (l.recordAll datagrams).unacked ∨ l.Displaces datagrams entry := by
  induction datagrams generalizing l with
  | nil => exact .inl h
  | cons datagram rest ih =>
    rcases record_keeps datagram h with hstands | hleaves
    · rcases ih hstands with hkept | ⟨front, other, back, rfl, hleaves⟩
      · exact .inl hkept
      · exact .inr ⟨datagram :: front, other, back, rfl, hleaves⟩
    · exact .inr ⟨[], datagram, rest, rfl, hleaves⟩

/-- A recording adds nothing but the datagram. -/
theorem mem_of_mem_record (h : entry ∈ (l.record datagram).unacked) :
    entry ∈ l.unacked ∨ entry = datagram := by
  unfold record at h
  split at h
  · exact .inl h
  · split at h
    · exact List.mem_or_eq_of_mem_set h
    · simp only [List.mem_append, List.mem_singleton] at h
      rcases h with hkept | rfl
      · split at hkept
        · exact .inl (List.mem_of_mem_drop hkept)
        · exact .inl hkept
      · exact .inr rfl

theorem mem_of_mem_recordAll {datagrams : List Datagram}
    (h : entry ∈ (l.recordAll datagrams).unacked) : entry ∈ l.unacked ∨ entry ∈ datagrams := by
  induction datagrams generalizing l with
  | nil => exact .inl h
  | cons datagram rest ih =>
    rcases ih h with hstands | hmem
    · rcases mem_of_mem_record hstands with hbefore | rfl
      · exact .inl hbefore
      · exact .inr (List.mem_cons_self ..)
    · exact .inr (List.mem_cons_of_mem _ hmem)

end Ledger

end Demo

end UvrrCore
