import UvrrCore.Maelstrom.JournalRegion

/-!
# The state file

One file a node: two header slots, and behind them the journal region. A commit appends the frames
of the new entries, then writes the header slot that the last one did not, one sequence number
higher; the slot is the commit point. The reader takes the slot with the higher number and exactly
the frames it counts.

What of the durable history stands under a journal is found by a walk down the uncommitted tail
over the digests of the mirror (`standing`).

## Main results

* `load_eq`: the reader answers with the state that the file holds.
* `create_holds`, `commit_holds`: a file created holds its state, and so does one committed.
-/

namespace UvrrCore

open ByteCodec FixedLayout

namespace Maelstrom

/-! ### Reading the file -/

def readSlot (file : List UInt8) (side : Side) : Option SlotBytes :=
  SlotBytes.decode (window file side.pos headerSize)

/-- The valid slot with the higher number, the first one among equals. -/
def activeSlot (file : List UInt8) : Option (SlotBytes × Side) :=
  match readSlot file .a, readSlot file .b with
  | some a, some b => if b.seq ≤ a.seq then some (a, .a) else some (b, .b)
  | some a, none => some (a, .a)
  | none, some b => some (b, .b)
  | none, none => none

/-- **The state file read**, and the mirror that is armed with it. -/
def load (file : Option Slice) : Except StoreError (NodeState × LogFile) :=
  match file with
  | none => .error .absent
  | some file =>
    if file.bytes.length < 2 * headerSize then .error (.corrupt .shortHeader)
    else
      match activeSlot file.bytes with
      | none => .error (.corrupt .noSlot)
      | some (slot, side) =>
        if u64Bound ≤ entriesBase + slot.bytes then .error (.corrupt .overflow)
        else if file.bytes.length < entriesBase + slot.bytes then .error (.corrupt .shortRegion)
        else
          match decodeEntries (Slice.part file entriesBase slot.bytes) slot.count slot.base with
          | .error defect => .error (.corrupt defect)
          | .ok (entries, mirror) =>
            .ok (⟨slot.copies, slot.roster, slot.progress, entries⟩,
              ⟨side, slot.seq, slot.roster, slot.base, mirror, slot.bytes⟩)

/-- The header slot of a mirror over a state. -/
def LogFile.slot (log : LogFile) (copies : SuperblockCopies) (progress : PersistedProgress) :
    SlotBytes where
  seq := log.seq
  copies := copies
  roster := log.roster
  progress := progress
  base := log.base
  count := log.entries.length
  bytes := log.bytes

/-- **A file that holds a state.** -/
structure Holds (file : List UInt8) (log : LogFile) (state : NodeState) : Prop where
  sized : 2 * headerSize ≤ file.length
  active : readSlot file log.side = some (log.slot state.copies state.progress)
  older : ∀ slot, readSlot file log.side.flip = some slot →
    slot.seq ≤ log.seq ∧ (log.side = .b → slot.seq < log.seq)
  roster : log.roster = state.roster
  run : ContiguousFrom log.base state.entries
  valid : ∀ entry ∈ state.entries, entry.Encodable ∧ entry.packedLen < u32Bound
  mirror : log.entries = mirrorFrom 0 state.entries
  bytes : log.bytes = (frames state.entries).length
  stands : window file entriesBase log.bytes = frames state.entries

theorem activeSlot_eq {file : List UInt8} {slot : SlotBytes} {side : Side} :
    activeSlot file = some (slot, side) ↔
      readSlot file side = some slot ∧ ∀ other, readSlot file side.flip = some other →
        other.seq ≤ slot.seq ∧ (side = .b → other.seq < slot.seq) := by
  unfold activeSlot
  cases ha : readSlot file .a with
  | none =>
    cases hb : readSlot file .b with
    | none => cases side <;> simp [ha, hb]
    | some b => cases side <;> simp [ha, hb, Side.flip]
  | some a =>
    cases hb : readSlot file .b with
    | none => cases side <;> simp [ha, hb, Side.flip]
    | some b =>
      simp only
      split
      · rename_i hle
        cases side
        · simp only [Option.some.injEq, Prod.mk.injEq, and_true, ha, Side.flip, hb]
          constructor
          · rintro rfl
            exact ⟨rfl, fun other hother => hother ▸ ⟨hle, fun h => by cases h⟩⟩
          · exact fun h => h.1
        · simp only [Option.some.injEq, Prod.mk.injEq, hb, Side.flip, ha]
          constructor
          · rintro ⟨-, h⟩
            cases h
          · rintro ⟨rfl, hall⟩
            exact absurd hle (Nat.not_le.mpr ((hall a rfl).2 trivial))
      · rename_i hlt
        cases side
        · simp only [Option.some.injEq, Prod.mk.injEq, hb, Side.flip, ha]
          constructor
          · rintro ⟨-, h⟩
            cases h
          · rintro ⟨rfl, hall⟩
            exact absurd (hall b rfl).1 hlt
        · simp only [Option.some.injEq, Prod.mk.injEq, and_true, hb, Side.flip, ha]
          constructor
          · rintro rfl
            have hlt' := Nat.not_le.mp hlt
            exact ⟨rfl, fun other hother => hother ▸ ⟨Nat.le_of_lt hlt', fun _ => hlt'⟩⟩
          · exact fun h => h.1

/-- **The reader answers with the state the file holds**, and with nothing else. -/
theorem load_eq {file : Slice} {log : LogFile} {state : NodeState} :
    load (some file) = .ok (state, log) ↔ Holds file.bytes log state := by
  unfold load
  simp only
  constructor
  · intro h
    split at h
    · cases h
    · rename_i hsized
      split at h
      · cases h
      · rename_i slot side hactive
        obtain ⟨hread, holder⟩ := activeSlot_eq.mp hactive
        split at h
        · cases h
        · split at h
          · cases h
          · rename_i hroom
            split at h
            · cases h
            · rename_i entries mirror hentries
              obtain ⟨hlength, hrun, hvalid, hbytes, rfl⟩ := decodeEntries_eq.mp hentries
              cases h
              have hregion : slot.bytes = (frames entries).length := by
                rw [← hbytes]
                exact (window_length (by omega)).symm
              have hslot : slot = LogFile.slot ⟨side, slot.seq, slot.roster, slot.base,
                  mirrorFrom 0 entries, slot.bytes⟩ slot.copies slot.progress := by
                rw [LogFile.slot, mirrorFrom_length, hlength]
              exact ⟨Nat.not_lt.mp hsized, hread.trans (congrArg some hslot), holder, rfl, hrun,
                hvalid, rfl, hregion, hbytes⟩
  · intro h
    have hsized := h.sized
    have hfile := file.sized
    have hroom := le_of_window (show entriesBase ≤ file.bytes.length from hsized)
      (h.bytes ▸ h.stands)
    have hbound : sliceBound < u64Bound := by decide
    have hentries : decodeEntries (Slice.part file entriesBase log.bytes) log.entries.length
        log.base = .ok (state.entries, log.entries) := by
      refine decodeEntries_eq.mpr ⟨?_, h.run, h.valid, h.stands, h.mirror⟩
      rw [h.mirror, mirrorFrom_length]
    rw [← h.bytes] at hroom
    have hword : ¬u64Bound ≤ entriesBase + (log.slot state.copies state.progress).bytes := by
      change ¬u64Bound ≤ entriesBase + log.bytes
      omega
    have hregion : ¬file.bytes.length < entriesBase +
        (log.slot state.copies state.progress).bytes := Nat.not_lt.mpr hroom
    rw [if_neg (Nat.not_lt.mpr hsized), activeSlot_eq.mpr ⟨h.active, h.older⟩]
    simp only
    rw [if_neg hword, if_neg hregion,
      show decodeEntries (Slice.part file entriesBase (log.slot state.copies state.progress).bytes)
        (log.slot state.copies state.progress).count (log.slot state.copies state.progress).base =
        .ok (state.entries, log.entries) from hentries]
    have hroster := h.roster
    cases log
    cases hroster
    rfl

/-! ### Writing the file -/

/-- Why a write is refused before it reaches the disk. -/
inductive WriteError where
  | noGenesis
  | nothingDurable
  | baseMoved (base durable : Nat)
  | emptyMirror
  | lostSlot (slot : Nat)
  | belowBase (stand base : Nat)
  | cannotFrame
  | encode (error : EncodeError)
deriving DecidableEq, Repr

/-- The frames of entries and their mirror. -/
def frameAll : List (Except WriteError LogEntry) → (offset : Nat) →
    Except WriteError (List DurableEntry × List UInt8)
  | [], _ => .ok ([], [])
  | .error error :: _, _ => .error error
  | .ok entry :: entries, offset =>
    if Framable entry then do
      let framed := frameBytes entry
      let (mirror, region) ← frameAll entries (offset + framed.length)
      return (⟨offset, framed.length, digestOf entry⟩ :: mirror, framed ++ region)
    else .error .cannotFrame

def encodeSlot (slot : SlotBytes) : Except WriteError (List UInt8) :=
  match slot.encode with
  | .error error => .error (.encode error)
  | .ok header => .ok header

/-- **The file of a first life**: slot a committed, slot b zeroed, and the journal behind them. It
lands by a rename, as a whole or not at all. -/
def create (state : NodeState) : Except WriteError (List UInt8 × LogFile) :=
  match state.entries with
  | [] => .error .noGenesis
  | first :: _ => do
    let (mirror, region) ← frameAll (state.entries.map .ok) 0
    let log : LogFile := ⟨.a, 1, state.roster, first.slot, mirror, region.length⟩
    let header ← encodeSlot
      { log.slot state.copies state.progress with count := state.entries.length }
    return (header ++ (List.replicate headerSize 0 ++ region), log)

/-- The durable entry at a slot. -/
def LogFile.digestAt (log : LogFile) (slot : Nat) : Option UInt64 :=
  log.entries[slot - log.base]?.map DurableEntry.digest

section

variable {J : Type} [Journal J]

/-- The entry a journal holds at a slot that it is to hold. -/
def heldEntry (journal : J) (slot : Nat) : Except WriteError LogEntry :=
  match Journal.get journal slot with
  | none => .error (.lostSlot slot)
  | some entry => .ok entry

/-- **The standing prefix**: down the uncommitted tail, below every entry that differs. -/
def standing (log : LogFile) (journal : J) (committed : Nat) :
    (slot stand : Nat) → Except WriteError Nat
  | 0, stand => .ok stand
  | slot + 1, stand =>
    if committed < slot + 1 ∧ log.base < slot + 1 then
      match heldEntry journal (slot + 1) with
      | .error error => .error error
      | .ok entry =>
        standing log journal committed slot
          (if log.digestAt (slot + 1) ≠ some (digestOf entry) then slot else stand)
    else .ok stand

/-- What a commit is about to write. -/
structure Staged where
  entries : List DurableEntry
  /-- Where the frames go, from the start of the region. -/
  writeAt : Nat
  region : List UInt8
  header : List UInt8

def Staged.cursor (staged : Staged) : Nat := staged.writeAt + staged.region.length

/-- **One published transition** against the mirror. -/
def LogFile.stage (log : LogFile) (copies : SuperblockCopies) (progress : PersistedProgress)
    (journal : J) : Except WriteError Staged :=
  match Journal.accepted journal with
  | none => .error .nothingDurable
  | some frontier =>
    if (Journal.retained journal).1 ≠ log.base then
      .error (.baseMoved (Journal.retained journal).1 log.base)
    else if log.entries = [] then .error .emptyMirror
    else do
      let hi := min (log.base + log.entries.length - 1) frontier
      let stand ← standing log journal progress.committed hi hi
      if stand + 1 < log.base then .error (.belowBase stand log.base)
      else do
        let kept := log.entries.take (stand + 1 - log.base)
        let writeAt := (kept.getLast?.map fun entry => entry.offset + entry.len).getD 0
        let (mirror, region) ← frameAll
          ((List.range' (stand + 1) (frontier - stand)).map (heldEntry journal)) writeAt
        let header ← encodeSlot {
          seq := log.seq + 1
          copies
          roster := log.roster
          progress
          base := log.base
          count := (kept ++ mirror).length
          bytes := writeAt + region.length }
        return ⟨kept ++ mirror, writeAt, region, header⟩

end

/-- The frames written. Nothing to append leaves the region alone. -/
def Staged.append (staged : Staged) (file : List UInt8) : List UInt8 :=
  if staged.region = [] then file else put file (entriesBase + staged.writeAt) staged.region

/-- The inactive slot written behind them. -/
def Staged.land (staged : Staged) (log : LogFile) (file : List UInt8) : List UInt8 :=
  put (staged.append file) log.side.flip.pos staged.header

/-- The mirror once the slot has landed. -/
def LogFile.committed (log : LogFile) (staged : Staged) : LogFile :=
  { log with
    side := log.side.flip
    seq := log.seq + 1
    entries := staged.entries
    bytes := staged.cursor }

/-! ### What is written -/

theorem frameAll_eq {reads : List (Except WriteError LogEntry)} {offset : Nat}
    {mirror : List DurableEntry} {region : List UInt8} :
    frameAll reads offset = .ok (mirror, region) ↔
      ∃ entries, reads = entries.map .ok ∧ (∀ entry ∈ entries, Framable entry) ∧
        mirror = mirrorFrom offset entries ∧ region = frames entries := by
  induction reads generalizing offset mirror region with
  | nil =>
    constructor
    · intro h
      cases h
      exact ⟨[], rfl, fun _ hmem => absurd hmem List.not_mem_nil, rfl, rfl⟩
    · rintro ⟨entries, hreads, -, rfl, rfl⟩
      rw [List.map_eq_nil_iff.mp hreads.symm]
      rfl
  | cons read reads ih =>
    cases read with
    | error error =>
      constructor
      · intro h
        cases h
      · rintro ⟨entries, hreads, -⟩
        cases entries with
        | nil => cases hreads
        | cons entry entries => cases hreads
    | ok entry =>
      have hrecord : Framable entry → durableEntry offset entry =
          ⟨offset, (frameBytes entry).length, digestOf entry⟩ := by
        intro hframable
        unfold Framable at hframable
        rw [durableEntry, frameBytes_length, Nat.mod_eq_of_lt hframable, Nat.add_comm]
      unfold frameAll
      constructor
      · intro h
        split at h
        · rename_i hframable
          simp only [bind_eq_ok, Prod.exists, pure_eq_ok, Prod.mk.injEq] at h
          obtain ⟨mirror', region', hrest, rfl, rfl⟩ := h
          obtain ⟨entries, rfl, hall, rfl, rfl⟩ := ih.mp hrest
          exact ⟨entry :: entries, rfl, List.forall_mem_cons.mpr ⟨hframable, hall⟩,
            by rw [mirrorFrom, hrecord hframable], (frames_cons entry entries).symm⟩
        · cases h
      · rintro ⟨entries, hreads, hall, rfl, rfl⟩
        cases entries with
        | nil => cases hreads
        | cons entry' entries =>
          cases hreads
          obtain ⟨hframable, hall⟩ := List.forall_mem_cons.mp hall
          rw [if_pos hframable]
          simp only [bind_eq_ok, Prod.exists, pure_eq_ok, Prod.mk.injEq]
          exact ⟨_, _, ih.mpr ⟨entries, rfl, hall, rfl, rfl⟩,
            by rw [mirrorFrom, hrecord hframable], frames_cons entry entries⟩

theorem encodeSlot_eq {slot : SlotBytes} {header : List UInt8} :
    encodeSlot slot = .ok header ↔ slot.encode = .ok header := by
  unfold encodeSlot
  cases slot.encode with
  | error error =>
    constructor
    all_goals
      intro h
      cases h
  | ok image => exact ⟨fun h => by cases h; rfl, fun h => by cases h; rfl⟩

/-- The fields of a record are values of their types. -/
structure Recordable (copies : SuperblockCopies) (progress : PersistedProgress) : Prop where
  identities : ∀ index, (copies.copies index).identity < u32Bound
  current : progress.current.Encodable
  retained : progress.retained.Encodable
  accepted : progress.accepted < u64Bound
  committed : progress.committed < u64Bound
  applied : progress.applied < u64Bound
  checkpoint : progress.checkpoint < u64Bound
  revision : progress.revision < u64Bound

theorem Recordable.inRange {slot : SlotBytes} (h : Recordable slot.copies slot.progress)
    (hseq : slot.seq < u64Bound) (hbase : slot.base < u64Bound) (hcount : slot.count < u64Bound)
    (hbytes : slot.bytes < u64Bound) : slot.InRange :=
  ⟨hseq, h.identities, h.current, h.retained, h.accepted, h.committed, h.applied, h.checkpoint,
    h.revision, hbase, hcount, hbytes⟩

theorem length_le_frames (entries : List LogEntry) : entries.length ≤ (frames entries).length := by
  induction entries with
  | nil => exact Nat.le_refl _
  | cons entry entries ih =>
    rw [frames_cons, List.length_append, frameBytes_length, List.length_cons]
    omega

theorem framable_packedLen {entry : LogEntry} (h : Framable entry) : entry.packedLen < u32Bound :=
  Nat.lt_of_le_of_lt (Nat.le_add_right _ 4) h

/-- An empty slot is no slot. -/
theorem decode_zeros : SlotBytes.decode (List.replicate headerSize 0) = none := by
  have hmagic : getUint 4 (List.replicate headerSize 0) 0 = 0 := by
    rw [getUint, window, List.drop_zero, List.take_replicate]
    rfl
  unfold SlotBytes.decode
  rw [hmagic, if_pos (Or.inl (by decide))]

/-- **A first life's file holds its state.** -/
theorem create_holds {state : NodeState} {file : Slice} {log : LogFile} {first : LogEntry}
    {rest : List LogEntry} (hentries : state.entries = first :: rest)
    (hrun : ContiguousFrom first.slot state.entries)
    (hencodable : ∀ entry ∈ state.entries, entry.Encodable)
    (hrecord : Recordable state.copies state.progress) (hroster : RosterLawful state.roster)
    (h : create state = .ok (file.bytes, log)) :
    Holds file.bytes log state ∧ ∀ entry ∈ state.entries, Framable entry := by
  unfold create at h
  rw [hentries] at h
  simp only [bind_eq_ok, Prod.exists, pure_eq_ok, Prod.mk.injEq, encodeSlot_eq] at h
  rw [← hentries] at h
  obtain ⟨mirror, region, hframed, header, hencode, hfile, rfl⟩ := h
  obtain ⟨entries, hmap, hframable, rfl, rfl⟩ := frameAll_eq.mp hframed
  obtain rfl : state.entries = entries :=
    List.map_injective_iff.mpr (fun _ _ heq => Except.ok.inj heq) hmap
  have hcount := length_le_frames state.entries
  have hsize := file.sized
  have hbound : sliceBound < u64Bound := by decide
  have hregion : (frames state.entries).length ≤ file.bytes.length := by
    rw [← hfile, List.length_append, List.length_append]
    omega
  have hfirst := hencodable first (hentries ▸ List.mem_cons_self)
  obtain ⟨hheader, hread⟩ := SlotBytes.encode_read
    (hrecord.inRange (show 1 < u64Bound by decide) hfirst.1
      (show state.entries.length < u64Bound by omega)
      (show (frames state.entries).length < u64Bound by omega)) hroster hencode
  have hzeros : (List.replicate headerSize (0 : UInt8)).length = headerSize := List.length_replicate
  have hslots := window_between [] header (List.replicate headerSize 0 ++ frames state.entries)
  have hslots' := window_between header (List.replicate headerSize 0) (frames state.entries)
  have hstands := window_between (header ++ List.replicate headerSize 0) (frames state.entries) []
  rw [List.append_nil, List.append_assoc, List.length_append, hheader, hzeros] at hstands
  rw [hheader, hzeros] at hslots'
  rw [hheader, List.nil_append] at hslots
  have hactive : readSlot file.bytes .a = some (LogFile.slot ⟨.a, 1, state.roster, first.slot,
      mirrorFrom 0 state.entries, (frames state.entries).length⟩ state.copies state.progress) := by
    rw [readSlot, ← hfile]
    refine (congrArg SlotBytes.decode hslots).trans (hread.trans ?_)
    rw [LogFile.slot, mirrorFrom_length]
  have hempty : readSlot file.bytes .b = none := by
    rw [readSlot, ← hfile]
    exact (congrArg SlotBytes.decode hslots').trans decode_zeros
  refine ⟨⟨?_, hactive, ?_, rfl, hrun,
    fun entry hmem => ⟨hencodable entry hmem, framable_packedLen (hframable entry hmem)⟩,
    rfl, rfl, ?_⟩, hframable⟩
  · rw [← hfile, List.length_append, List.length_append, hheader, hzeros]
    omega
  · intro slot hslot
    rw [show Side.flip .a = .b from rfl, hempty] at hslot
    cases hslot
  · rw [← hfile, entriesBase, Nat.two_mul]
    exact hstands

/-- A state whose entries fit their frames can be written. -/
theorem create_ok {state : NodeState} {first : LogEntry} {rest : List LogEntry}
    (hentries : state.entries = first :: rest)
    (hframable : ∀ entry ∈ state.entries, Framable entry)
    (hfits : 4 + namesLen state.roster ≤ rosterArea) :
    ∃ header, header.length = headerSize ∧
      create state = .ok (header ++ (List.replicate headerSize 0 ++ frames state.entries),
        ⟨.a, 1, state.roster, first.slot, mirrorFrom 0 state.entries,
          (frames state.entries).length⟩) := by
  let slot : SlotBytes := { LogFile.slot ⟨.a, 1, state.roster, first.slot,
    mirrorFrom 0 state.entries, (frames state.entries).length⟩ state.copies state.progress with
    count := state.entries.length }
  have hencode : encodeSlot slot = .ok slot.image :=
    encodeSlot_eq.mpr (SlotBytes.encode_eq_ok.mpr ⟨hfits, rfl⟩)
  have hframed : frameAll (state.entries.map .ok) 0 =
      .ok (mirrorFrom 0 state.entries, frames state.entries) :=
    frameAll_eq.mpr ⟨state.entries, rfl, hframable, rfl, rfl⟩
  refine ⟨slot.image, SlotBytes.image_length hfits, ?_⟩
  unfold create
  rw [hentries]
  simp only [bind_eq_ok, Prod.exists, pure_eq_ok, Prod.mk.injEq]
  rw [← hentries]
  exact ⟨_, _, hframed, _, hencode, rfl, rfl⟩

/-! ### Commits -/

section

variable {J : Type} [Journal J] {log : LogFile} {journal : J}

/-- The mirror and the journal agree on a slot. -/
def Matches (log : LogFile) (journal : J) (slot : Nat) : Prop :=
  ∃ entry, Journal.get journal slot = some entry ∧ log.digestAt slot = some (digestOf entry)

theorem heldEntry_eq {slot : Nat} {entry : LogEntry} :
    heldEntry journal slot = .ok entry ↔ Journal.get journal slot = some entry := by
  unfold heldEntry
  cases Journal.get journal slot with
  | none =>
    constructor
    all_goals
      intro h
      cases h
  | some held => exact ⟨fun h => by cases h; rfl, fun h => by cases h; rfl⟩

/-- **What the walk finds**, by induction down the tail: everything it passed stands up to the
prefix, and behind the prefix stands what does not. -/
theorem standing_spec {committed slot stand found : Nat} (hle : slot ≤ stand)
    (h : standing log journal committed slot stand = .ok found) :
    found ≤ stand ∧
      (∀ t, max committed log.base < t → t ≤ slot → t ≤ found → Matches log journal t) ∧
      (found = stand ∨ max committed log.base ≤ found ∧ found < slot ∧
        ¬Matches log journal (found + 1)) := by
  induction slot generalizing stand with
  | zero =>
    cases h
    exact ⟨Nat.le_refl _, fun t hlo hhi => absurd hhi (by omega), Or.inl rfl⟩
  | succ slot ih =>
    unfold standing at h
    split at h
    · rename_i hguard
      cases hheld : heldEntry journal (slot + 1) with
      | error error =>
        rw [hheld] at h
        cases h
      | ok entry =>
        rw [hheld] at h
        simp only at h
        have hget := heldEntry_eq.mp hheld
        split at h
        · rename_i hdiffers
          obtain ⟨hfound, hall, hstop⟩ := ih (Nat.le_refl _) h
          have hnot : ¬Matches log journal (slot + 1) := by
            rintro ⟨held, hheld', hdigest⟩
            rw [hget] at hheld'
            cases hheld'
            exact hdiffers hdigest
          refine ⟨by omega, fun t hlo hhi hfound' => hall t hlo (by omega) hfound', ?_⟩
          rcases hstop with rfl | ⟨hlo, hhi, hmiss⟩
          · exact Or.inr ⟨by omega, Nat.lt_succ_self _, hnot⟩
          · exact Or.inr ⟨hlo, by omega, hmiss⟩
        · rename_i hsame
          obtain ⟨hfound, hall, hstop⟩ := ih (by omega) h
          refine ⟨hfound, fun t hlo hhi hfound' => ?_, ?_⟩
          · by_cases htop : t = slot + 1
            · rw [htop]
              exact ⟨entry, hget, not_not.mp hsame⟩
            · exact hall t hlo (by omega) hfound'
          · rcases hstop with heq | ⟨hlo, hhi, hmiss⟩
            · exact Or.inl heq
            · exact Or.inr ⟨hlo, by omega, hmiss⟩
    · rename_i hguard
      cases h
      exact ⟨Nat.le_refl _, fun t hlo hhi => absurd hguard (by omega), Or.inl rfl⟩

/-- The entries of a list that stand up to a slot. -/
def keptEntries (base stand : Nat) (entries : List LogEntry) : List LogEntry :=
  entries.take (stand + 1 - base)

/-- **What a commit writes**: the kept entries stay, the journal's entries above them follow. -/
theorem stage_ok {copies : SuperblockCopies} {progress : PersistedProgress} {staged : Staged}
    {entries : List LogEntry} (hmirror : log.entries = mirrorFrom 0 entries)
    (hframable : ∀ entry ∈ entries, Framable entry)
    (h : log.stage copies progress journal = .ok staged) :
    ∃ frontier stand added,
      Journal.accepted journal = some frontier ∧ (Journal.retained journal).1 = log.base ∧
      standing log journal progress.committed (min (log.base + log.entries.length - 1) frontier)
        (min (log.base + log.entries.length - 1) frontier) = .ok stand ∧
      log.base ≤ stand + 1 ∧ stand + 1 - log.base ≤ entries.length ∧
      (List.range' (stand + 1) (frontier - stand)).map (heldEntry journal) = added.map .ok ∧
      (∀ entry ∈ added, Framable entry) ∧
      staged.entries = mirrorFrom 0 (keptEntries log.base stand entries ++ added) ∧
      staged.writeAt = (frames (keptEntries log.base stand entries)).length ∧
      staged.region = frames added ∧
      ((log.committed staged).slot copies progress).encode = .ok staged.header := by
  unfold LogFile.stage at h
  split at h
  · cases h
  · rename_i frontier hfrontier
    split at h
    · cases h
    · rename_i hbase
      split at h
      · cases h
      · rename_i hnonempty
        simp only [bind_eq_ok] at h
        obtain ⟨stand, hstanding, h⟩ := h
        split at h
        · cases h
        · rename_i hbelow
          simp only [bind_eq_ok, Prod.exists, pure_eq_ok, encodeSlot_eq] at h
          obtain ⟨mirror, region, hframed, header, hencode, rfl⟩ := h
          obtain ⟨added, hadded, hall, rfl, rfl⟩ := frameAll_eq.mp hframed
          have hkept : log.entries.take (stand + 1 - log.base) =
              mirrorFrom 0 (keptEntries log.base stand entries) := by
            rw [hmirror, mirrorFrom_take, keptEntries]
          have hkept' : ∀ entry ∈ keptEntries log.base stand entries, Framable entry :=
            fun entry hmem => hframable entry (List.mem_of_mem_take hmem)
          have hend := @mirrorFrom_end 0 _ hkept'
          have hstand := (standing_spec (Nat.le_refl _) hstanding).1
          have hpos := List.length_pos_of_ne_nil hnonempty
          have hlength : log.entries.length = entries.length := by rw [hmirror, mirrorFrom_length]
          rw [Nat.zero_add] at hend
          rw [hkept, hend] at hencode
          refine ⟨frontier, stand, added, hfrontier, not_not.mp hbase, hstanding,
            Nat.not_lt.mp hbelow, by omega, hadded, hall, ?_, ?_, rfl, ?_⟩
          · rw [hkept, hend, mirrorFrom_append, Nat.zero_add]
          · rw [hkept, hend]
          · rw [LogFile.slot, LogFile.committed, Staged.cursor, hkept, hend]
            exact hencode

theorem header_length {copies : SuperblockCopies} {progress : PersistedProgress} {staged : Staged}
    {entries : List LogEntry} (hmirror : log.entries = mirrorFrom 0 entries)
    (hframable : ∀ entry ∈ entries, Framable entry)
    (h : log.stage copies progress journal = .ok staged) : staged.header.length = headerSize := by
  obtain ⟨_, _, _, _, _, _, _, _, _, _, _, _, _, hencode⟩ := stage_ok hmirror hframable h
  obtain ⟨hfits, heq⟩ := SlotBytes.encode_eq_ok.mp hencode
  rw [heq, SlotBytes.image_length hfits]

theorem contiguousFrom_take {slot : Nat} {xs : List LogEntry} (h : ContiguousFrom slot xs)
    (n : Nat) : ContiguousFrom slot (xs.take n) := by
  rw [← List.take_append_drop n xs, contiguousFrom_append] at h
  exact h.1

/-- The entries a journal offers at consecutive slots are a run. -/
theorem contiguousFrom_of_held [LawfulJournal J] {slot count : Nat} {added : List LogEntry}
    (h : (List.range' slot count).map (heldEntry journal) = added.map .ok) :
    ContiguousFrom slot added ∧ added.length = count ∧
      ∀ entry ∈ added, Journal.get journal entry.slot = some entry := by
  induction count generalizing slot added with
  | zero =>
    rw [List.map_eq_nil_iff.mp h.symm]
    exact ⟨trivial, rfl, fun _ hmem => absurd hmem List.not_mem_nil⟩
  | succ count ih =>
    rw [List.range'_succ, List.map_cons] at h
    cases added with
    | nil => cases h
    | cons entry added =>
      rw [List.map_cons, List.cons.injEq] at h
      have hget := heldEntry_eq.mp h.1
      have hslot := LawfulJournal.get_slot hget
      obtain ⟨hrun, hlength, hall⟩ := ih h.2
      refine ⟨⟨hslot, hrun⟩, congrArg (· + 1) hlength, List.forall_mem_cons.mpr ⟨?_, hall⟩⟩
      rw [hslot]
      exact hget

/-- **What a transition publishes**, values of their types. -/
structure Publishes (log : LogFile) (copies : SuperblockCopies) (progress : PersistedProgress)
    (journal : J) : Prop where
  seq : log.seq + 1 < u64Bound
  record : Recordable copies progress
  encodable : ∀ slot entry, Journal.get journal slot = some entry → entry.Encodable

/-- What the file holds behind a commit: the durable entries up to the standing prefix, and the
journal's above it. -/
def durableAfter (base : Nat) (journal : J) (stand frontier : Nat) (entries : List LogEntry) :
    List LogEntry :=
  keptEntries base stand entries ++
    (List.range' (stand + 1) (frontier - stand)).filterMap (Journal.get journal)

theorem added_eq {slots : List Nat} {added : List LogEntry}
    (h : slots.map (heldEntry journal) = added.map .ok) :
    slots.filterMap (Journal.get journal) = added := by
  induction slots generalizing added with
  | nil => exact (List.map_eq_nil_iff.mp h.symm).symm
  | cons slot slots ih =>
    cases added with
    | nil => cases h
    | cons entry added =>
      rw [List.map_cons, List.map_cons, List.cons.injEq] at h
      rw [List.filterMap_cons_some (heldEntry_eq.mp h.1), ih h.2]

/-- The frames of the kept entries stand in front of the others. -/
theorem window_kept {file : List UInt8} {state : NodeState} (h : Holds file log state)
    (stand : Nat) :
    window file entriesBase (frames (keptEntries log.base stand state.entries)).length =
        frames (keptEntries log.base stand state.entries) ∧
      entriesBase + (frames (keptEntries log.base stand state.entries)).length ≤ file.length := by
  have hstands := h.stands
  rw [h.bytes, ← List.take_append_drop (stand + 1 - log.base) state.entries, frames_append]
    at hstands
  have hkept := ((window_append (show entriesBase ≤ file.length from h.sized)).mp hstands).1
  exact ⟨hkept, le_of_window h.sized hkept⟩

theorem append_eq {staged : Staged} {file : List UInt8}
    (hroom : entriesBase + staged.writeAt ≤ file.length) :
    staged.append file = put file (entriesBase + staged.writeAt) staged.region := by
  unfold Staged.append
  split
  · rename_i hnil
    rw [hnil, put_eq hroom, List.nil_append, List.length_nil, Nat.add_zero, List.take_append_drop]
  · rfl

/-- **The frames of a commit stand** once they are written, behind those kept. -/
theorem append_stands {file : List UInt8} {state : NodeState} {staged : Staged}
    {stand : Nat} {added : List LogEntry} (h : Holds file log state)
    (hwriteAt : staged.writeAt = (frames (keptEntries log.base stand state.entries)).length)
    (hregion : staged.region = frames added) :
    window (staged.append file) entriesBase staged.cursor =
        frames (keptEntries log.base stand state.entries ++ added) ∧
      entriesBase + staged.cursor ≤ (staged.append file).length := by
  obtain ⟨hkept, hroom⟩ := window_kept h stand
  rw [← hwriteAt] at hkept hroom
  rw [append_eq hroom, Staged.cursor, window_add, frames_append, ← hregion,
    window_put hroom staged.region, window_put_before hroom (Nat.le_refl _), hkept]
  refine ⟨rfl, ?_⟩
  rw [← Nat.add_assoc]
  exact (le_put_length hroom).2

theorem flip_pos (side : Side) : side.pos + headerSize ≤ entriesBase ∧
    (side.flip.pos + headerSize ≤ side.pos ∨ side.pos + headerSize ≤ side.flip.pos) := by
  cases side
  all_goals decide

/-- The header slots lie in front of the frames. -/
theorem readSlot_append {file : List UInt8} {staged : Staged}
    (hroom : entriesBase + staged.writeAt ≤ file.length) (side : Side) :
    readSlot (staged.append file) side = readSlot file side := by
  have hside := (flip_pos side).1
  unfold readSlot
  rw [append_eq hroom, window_put_before hroom (by omega)]

theorem active_slot {file : List UInt8} {state : NodeState} (h : Holds file log state) :
    (log.slot state.copies state.progress).InRange ∧ RosterLawful log.roster := by
  have hside := (flip_pos log.side).1
  have hlength : (window file log.side.pos headerSize).length = headerSize :=
    window_length (Nat.le_trans hside h.sized)
  obtain ⟨hrange, hlawful, -⟩ := (SlotBytes.decode_eq hlength).mp h.active
  exact ⟨hrange, hlawful⟩

/-- The entries behind a commit are a run of valid entries. -/
theorem staged_run [LawfulJournal J] {entries added : List LogEntry} {stand count : Nat}
    (hrun : ContiguousFrom log.base entries)
    (hvalid : ∀ entry ∈ entries, entry.Encodable) (hframable : ∀ entry ∈ entries, Framable entry)
    (hencodable : ∀ slot entry, Journal.get journal slot = some entry → entry.Encodable)
    (hbelow : log.base ≤ stand + 1)
    (hlength : stand + 1 - log.base ≤ entries.length)
    (hadded : (List.range' (stand + 1) count).map (heldEntry journal) = added.map .ok)
    (hall : ∀ entry ∈ added, Framable entry) :
    ContiguousFrom log.base (keptEntries log.base stand entries ++ added) ∧
      ∀ entry ∈ keptEntries log.base stand entries ++ added,
        entry.Encodable ∧ Framable entry := by
  obtain ⟨hrun', -, hget⟩ := contiguousFrom_of_held hadded
  have hkept : (keptEntries log.base stand entries).length = stand + 1 - log.base :=
    List.length_take_of_le hlength
  have hnext : log.base + (stand + 1 - log.base) = stand + 1 := by omega
  constructor
  · refine contiguousFrom_append.mpr ⟨contiguousFrom_take hrun _, ?_⟩
    rwa [hkept, hnext]
  · intro entry hmem
    rcases List.mem_append.mp hmem with hmem | hmem
    · have hold := List.mem_of_mem_take hmem
      exact ⟨hvalid entry hold, hframable entry hold⟩
    · exact ⟨hencodable _ _ (hget entry hmem), hall entry hmem⟩

/-- **A slot that lands** over frames that stand. -/
theorem land_holds {body : List UInt8} {landed : Slice} {old : SlotBytes} {staged : Staged}
    {copies : SuperblockCopies} {progress : PersistedProgress} {entries : List LogEntry}
    (hsized : entriesBase ≤ body.length) (hold : readSlot body log.side = some old)
    (hseq : old.seq = log.seq) (hlawful : RosterLawful log.roster)
    (hbase : log.base < u64Bound) (hpublishes : Publishes log copies progress journal)
    (hencode : ((log.committed staged).slot copies progress).encode = .ok staged.header)
    (hlanded : landed.bytes = put body log.side.flip.pos staged.header)
    (hrun : ContiguousFrom log.base entries)
    (hvalid : ∀ entry ∈ entries, entry.Encodable ∧ Framable entry)
    (hentries : staged.entries = mirrorFrom 0 entries)
    (hcursor : staged.cursor = (frames entries).length)
    (hstands : window body entriesBase staged.cursor = frames entries) :
    Holds landed.bytes (log.committed staged) ⟨copies, log.roster, progress, entries⟩ := by
  have hroom := le_of_window hsized (hcursor ▸ hstands)
  rw [← hcursor] at hroom
  obtain ⟨hside, hdisjoint⟩ := flip_pos log.side
  have hflip := (flip_pos log.side.flip).1
  have hsize := landed.sized
  have hbound : sliceBound < u64Bound := by decide
  have hheader : staged.header.length = headerSize := by
    obtain ⟨hfits, heq⟩ := SlotBytes.encode_eq_ok.mp hencode
    rw [heq, SlotBytes.image_length hfits]
  have hput : landed.bytes.length = body.length := by
    rw [hlanded, put_length (by omega)]
  have hcount : staged.entries.length ≤ staged.cursor := by
    rw [hentries, mirrorFrom_length, hcursor]
    exact length_le_frames _
  have hrange : ((log.committed staged).slot copies progress).InRange :=
    Recordable.inRange hpublishes.record hpublishes.seq hbase
      (show staged.entries.length < u64Bound by omega)
      (show staged.cursor < u64Bound by omega)
  have hactive : readSlot landed.bytes log.side.flip =
      some ((log.committed staged).slot copies progress) := by
    rw [readSlot, hlanded, ← hheader, window_put (by omega)]
    exact (SlotBytes.encode_read hrange hlawful hencode).2
  have holder : readSlot landed.bytes log.side = some old := by
    rw [← hold, readSlot, hlanded]
    rcases hdisjoint with hafter | hbefore
    · rw [window_put_after (by omega) (by omega)]
      rfl
    · rw [window_put_before (by omega) hbefore]
      rfl
  refine ⟨by rw [hput]; exact hsized, hactive, ?_, rfl, hrun,
    fun entry hmem => ⟨(hvalid entry hmem).1, framable_packedLen (hvalid entry hmem).2⟩, hentries,
    hcursor, ?_⟩
  · intro slot hslot
    rw [LogFile.committed, Side.flip_flip, holder] at hslot
    cases hslot
    change old.seq ≤ log.seq + 1 ∧ (log.side.flip = .b → old.seq < log.seq + 1)
    omega
  · change window landed.bytes entriesBase staged.cursor = _
    rw [hlanded, window_put_after (by omega) (by omega), hstands]

/-- **A commit that landed** is what the file holds. -/
theorem commit_holds [LawfulJournal J] {file landed : Slice} {state : NodeState}
    {copies : SuperblockCopies} {progress : PersistedProgress} {staged : Staged}
    (h : Holds file.bytes log state) (hframable : ∀ entry ∈ state.entries, Framable entry)
    (hpublishes : Publishes log copies progress journal)
    (hstage : log.stage copies progress journal = .ok staged)
    (hlanded : landed.bytes = staged.land log file.bytes) :
    ∃ frontier stand, Journal.accepted journal = some frontier ∧
      standing log journal progress.committed (min (log.base + log.entries.length - 1) frontier)
        (min (log.base + log.entries.length - 1) frontier) = .ok stand ∧
      Holds landed.bytes (log.committed staged) ⟨copies, state.roster, progress,
        durableAfter log.base journal stand frontier state.entries⟩ ∧
      ∀ entry ∈ durableAfter log.base journal stand frontier state.entries, Framable entry := by
  obtain ⟨frontier, stand, added, hfrontier, -, hstanding, hbelow, hlength, hadded, hall, hentries,
    hwriteAt, hregion, hencode⟩ := stage_ok h.mirror hframable hstage
  obtain ⟨hrun, hvalid⟩ := staged_run h.run (fun entry hmem => (h.valid entry hmem).1) hframable
    hpublishes.encodable hbelow hlength hadded hall
  refine ⟨frontier, stand, hfrontier, hstanding, ?_⟩
  rw [durableAfter, added_eq hadded]
  refine ⟨?_, fun entry hmem => (hvalid entry hmem).2⟩
  obtain ⟨hstands, hcursor⟩ := append_stands h hwriteAt hregion
  have hroom := (window_kept h stand).2
  rw [← hwriteAt] at hroom
  obtain ⟨hrange, hlawful⟩ := active_slot h
  have hcursor' : staged.cursor =
      (frames (keptEntries log.base stand state.entries ++ added)).length := by
    rw [Staged.cursor, hwriteAt, hregion, frames_append, List.length_append]
  rw [← h.roster]
  exact land_holds (Nat.le_trans (Nat.le_add_right _ _) hcursor)
    ((readSlot_append hroom _).trans h.active) rfl hlawful hrange.base hpublishes hencode hlanded
    hrun hvalid hentries hcursor' hstands

end

end Maelstrom

end UvrrCore
