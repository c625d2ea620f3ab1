import UvrrCore.Maelstrom.HeaderSlot

/-!
# The journal region of the state file

Behind its two header slots the state file holds the journal entries, each in a frame: its length,
then the entry packed. The reader takes so many frames as the header counts, contiguous from the
header's base, and nothing behind them. Beside the entries it arms a mirror: where each frame lies,
how long it is, and a digest of what is in it.

## Main results

* `decodeEntries_eq`: a region reads as the entries whose frames it is, and as nothing else.
* `frameBytes_unique`: two frames at one place are of one entry.
-/

namespace UvrrCore

open ByteCodec FixedLayout

/-- A part of a slice. -/
def Slice.part (s : Slice) (pos len : Nat) : Slice :=
  ⟨window s.bytes pos len, by
    have := s.sized
    unfold window
    rw [List.length_take, List.length_drop]
    omega⟩

namespace Maelstrom

/-! ### The mirror -/

/-- Where the journal region starts: behind both slots. -/
def entriesBase : Nat := 2 * headerSize

structure DurableEntry where
  offset : Nat
  len : Nat
  digest : UInt64
deriving DecidableEq

inductive Side where
  | a
  | b
deriving DecidableEq, Repr

def Side.pos : Side → Nat
  | .a => 0
  | .b => headerSize

def Side.flip : Side → Side
  | .a => .b
  | .b => .a

@[simp] theorem Side.flip_flip (side : Side) : side.flip.flip = side := by
  cases side
  all_goals rfl

/-- The open state file and the mirror of its committed content. -/
structure LogFile where
  /-- Which slot the last commit landed in. -/
  side : Side
  seq : Nat
  roster : List String
  /-- The first durable entry's slot. -/
  base : Nat
  /-- The durable entries, oldest first. -/
  entries : List DurableEntry
  /-- Where the next append writes. -/
  bytes : Nat

/-! ### Frames -/

/-- The frame of an entry: its length, then the entry packed. -/
def frameBytes (entry : LogEntry) : List UInt8 := PackWriter.u32 entry.packedLen ++ entry.pack

def digestOf (entry : LogEntry) : UInt64 := fnv1a entry.pack

/-- A frame and its length fit their words. The packing itself does not fail: its buffer has the
packed length. -/
def Framable (entry : LogEntry) : Prop := entry.packedLen + 4 < u32Bound

instance (entry : LogEntry) : Decidable (Framable entry) :=
  inferInstanceAs (Decidable (_ < _))

def durableEntry (offset : Nat) (entry : LogEntry) : DurableEntry :=
  ⟨offset, (entry.packedLen + 4) % u32Bound, digestOf entry⟩

/-- The frames of entries, one behind the other. -/
def frames (entries : List LogEntry) : List UInt8 := entries.flatMap frameBytes

/-- The mirror of entries framed from an offset on. -/
def mirrorFrom (offset : Nat) : List LogEntry → List DurableEntry
  | [] => []
  | entry :: entries =>
    durableEntry offset entry :: mirrorFrom (offset + (frameBytes entry).length) entries

/-- Why the journal region is no record. -/
inductive Defect where
  | shortHeader
  | noSlot
  | overflow
  | shortRegion
  | entryShort (number : Nat)
  | entryUndecodable (number : Nat) (error : UnpackError)
  | entryMisplaced (number slot expected : Nat)
  | excess
deriving DecidableEq, Repr

inductive StoreError where
  | absent
  | corrupt (defect : Defect)
deriving DecidableEq, Repr

/-- One frame of the region, the entry at its slot. -/
def decodeEntry (region : Slice) (base number pos : Nat) :
    Except Defect (LogEntry × DurableEntry × Nat) :=
  if region.bytes.length < pos + 4 then .error (.entryShort number)
  else
    let len := getUint 4 region.bytes pos
    if region.bytes.length < pos + 4 + len then .error (.entryShort number)
    else
      match unpackFrom LogEntry.unpack (Slice.part region (pos + 4) len) with
      | .error error => .error (.entryUndecodable number error)
      | .ok entry =>
        if entry.slot ≠ base + number then
          .error (.entryMisplaced number entry.slot (base + number))
        else
          let digest := fnv1a (window region.bytes (pos + 4) len)
          .ok (entry, ⟨pos, (len + 4) % u32Bound, digest⟩, pos + 4 + len)

def decodeFrom (region : Slice) (base : Nat) :
    (count number pos : Nat) → Except Defect (List LogEntry × List DurableEntry × Nat)
  | 0, _, pos => .ok ([], [], pos)
  | count + 1, number, pos => do
    let (entry, durable, pos) ← decodeEntry region base number pos
    let (entries, mirror, pos) ← decodeFrom region base count (number + 1) pos
    return (entry :: entries, durable :: mirror, pos)

/-- **The journal region**: so many frames, contiguous from the base, and nothing behind them. -/
def decodeEntries (region : Slice) (count base : Nat) :
    Except Defect (List LogEntry × List DurableEntry) := do
  let (entries, mirror, pos) ← decodeFrom region base count 0 0
  if pos ≠ region.bytes.length then .error .excess else .ok (entries, mirror)

/-! ### What the region decodes to -/

theorem frameBytes_length (entry : LogEntry) :
    (frameBytes entry).length = 4 + entry.packedLen := by
  rw [frameBytes, List.length_append, LogEntry.pack_length, PackWriter.u32, beBytes_length]

theorem frames_cons (entry : LogEntry) (entries : List LogEntry) :
    frames (entry :: entries) = frameBytes entry ++ frames entries := List.flatMap_cons

theorem frames_append (front back : List LogEntry) :
    frames (front ++ back) = frames front ++ frames back := List.flatMap_append

theorem mirrorFrom_length (offset : Nat) (entries : List LogEntry) :
    (mirrorFrom offset entries).length = entries.length := by
  induction entries generalizing offset with
  | nil => rfl
  | cons entry entries ih => rw [mirrorFrom, List.length_cons, ih, List.length_cons]

theorem mirrorFrom_append (offset : Nat) (front back : List LogEntry) :
    mirrorFrom offset (front ++ back) =
      mirrorFrom offset front ++ mirrorFrom (offset + (frames front).length) back := by
  induction front generalizing offset with
  | nil =>
    rw [List.nil_append, mirrorFrom, List.nil_append]
    rfl
  | cons entry front ih =>
    rw [List.cons_append, mirrorFrom, ih, mirrorFrom, frames_cons, List.length_append,
      List.cons_append, Nat.add_assoc]

theorem mirrorFrom_getElem? (offset : Nat) (entries : List LogEntry) (i : Nat) :
    ((mirrorFrom offset entries)[i]?).map DurableEntry.digest = entries[i]?.map digestOf := by
  induction entries generalizing offset i with
  | nil => rfl
  | cons entry entries ih =>
    cases i with
    | zero =>
      rw [mirrorFrom, List.getElem?_cons_zero, List.getElem?_cons_zero, Option.map_some,
        Option.map_some, durableEntry]
    | succ i =>
      rw [mirrorFrom, List.getElem?_cons_succ, List.getElem?_cons_succ]
      exact ih _ i

/-- A frame that stands in a region is read, if its entry sits where it is to sit. -/
theorem decodeEntry_eq {region : Slice} {base number pos stop : Nat} {entry : LogEntry}
    {durable : DurableEntry} (hpos : pos ≤ region.bytes.length) :
    decodeEntry region base number pos = .ok (entry, durable, stop) ↔
      (entry.Encodable ∧ entry.packedLen < u32Bound) ∧ entry.slot = base + number ∧
        window region.bytes pos (frameBytes entry).length = frameBytes entry ∧
        durable = durableEntry pos entry ∧ stop = pos + (frameBytes entry).length := by
  rw [show window region.bytes pos (frameBytes entry).length = frameBytes entry ↔ _ from
    window_append hpos, frameBytes_length]
  unfold decodeEntry PackWriter.u32
  simp only
  rw [beBytes_length]
  constructor
  · intro h
    split at h
    · cases h
    · rename_i hfield
      split at h
      · cases h
      · rename_i hbody
        split at h
        · cases h
        · rename_i read hread
          split at h
          · cases h
          · rename_i hslot
            cases h
            obtain ⟨hencodable, hpack⟩ := (unpackFrom_eq_ok LogEntry.unpack_decodes).mp hread
            have hlen : getUint 4 region.bytes pos = entry.packedLen := by
              rw [← LogEntry.pack_length, ← hpack]
              exact (window_length (by omega)).symm
            have hword := window_getUint (show pos + 4 ≤ region.bytes.length by omega)
            rw [beBytes_length, hlen] at hword
            refine ⟨⟨hencodable, hlen ▸ getUint_lt 4 _ _⟩, not_not.mp hslot, ⟨hword, ?_⟩, ?_, ?_⟩
            · rw [LogEntry.pack_length, ← hlen]
              exact hpack
            · rw [durableEntry, digestOf, ← hpack, hlen]
              rfl
            · rw [hlen, Nat.add_assoc]
  · rintro ⟨⟨hencodable, hsmall⟩, hslot, ⟨hword, hpack⟩, rfl, rfl⟩
    have hfield := le_of_window hpos (by rwa [beBytes_length])
    rw [beBytes_length] at hfield
    have hbody := le_of_window hfield hpack
    rw [LogEntry.pack_length] at hpack hbody
    have hlen : getUint 4 region.bytes pos = entry.packedLen :=
      getUint_of_window hsmall (by rwa [beBytes_length])
    have hread : unpackFrom LogEntry.unpack (Slice.part region (pos + 4) entry.packedLen) =
        .ok entry := (unpackFrom_eq_ok LogEntry.unpack_decodes).mpr ⟨hencodable, hpack⟩
    rw [hlen, if_neg (by omega), if_neg (by omega), hread]
    simp only
    rw [if_neg (not_not.mpr hslot), hpack, ← Nat.add_assoc]
    rfl

/-- **What a region reads as**: the entries whose frames stand in it, contiguous from the base. -/
theorem decodeFrom_eq {region : Slice} {base count number pos stop : Nat}
    {entries : List LogEntry} {mirror : List DurableEntry} (hpos : pos ≤ region.bytes.length) :
    decodeFrom region base count number pos = .ok (entries, mirror, stop) ↔
      entries.length = count ∧ ContiguousFrom (base + number) entries ∧
        (∀ entry ∈ entries, entry.Encodable ∧ entry.packedLen < u32Bound) ∧
        window region.bytes pos (frames entries).length = frames entries ∧
        mirror = mirrorFrom pos entries ∧ stop = pos + (frames entries).length := by
  induction count generalizing number pos entries mirror stop with
  | zero =>
    constructor
    · intro h
      cases h
      exact ⟨rfl, trivial, fun _ hmem => absurd hmem List.not_mem_nil, rfl, rfl, rfl⟩
    · rintro ⟨hlength, -, -, -, rfl, rfl⟩
      rw [List.length_eq_zero_iff.mp hlength]
      rfl
  | succ count ih =>
    simp only [decodeFrom, bind_eq_ok, Prod.exists, pure_eq_ok, Prod.mk.injEq]
    constructor
    · rintro ⟨entry, durable, pos', hentry, entries', mirror', stop', hrest, rfl, rfl, rfl⟩
      obtain ⟨hvalid, hslot, hframe, rfl, rfl⟩ := (decodeEntry_eq hpos).mp hentry
      have hpos' := le_of_window hpos hframe
      obtain ⟨hlength, hrun, hall, hframes, rfl, rfl⟩ := (ih hpos').mp hrest
      refine ⟨congrArg (· + 1) hlength, ⟨hslot, hrun⟩, List.forall_mem_cons.mpr ⟨hvalid, hall⟩,
        ?_, rfl, ?_⟩
      · rw [frames_cons]
        exact (window_append hpos).mpr ⟨hframe, hframes⟩
      · rw [frames_cons, List.length_append, Nat.add_assoc]
    · rintro ⟨hlength, hrun, hall, hframes, rfl, rfl⟩
      cases entries with
      | nil => cases hlength
      | cons entry entries =>
        rw [frames_cons] at hframes
        obtain ⟨hframe, hframes⟩ := (window_append hpos).mp hframes
        obtain ⟨hvalid, hall⟩ := List.forall_mem_cons.mp hall
        have hpos' := le_of_window hpos hframe
        refine ⟨entry, _, _, (decodeEntry_eq hpos).mpr ⟨hvalid, hrun.1, hframe, rfl, rfl⟩,
          entries, _, _, (ih hpos').mpr ⟨Nat.succ.inj hlength, hrun.2, hall, hframes, rfl, rfl⟩,
          rfl, rfl, ?_⟩
        rw [frames_cons, List.length_append, Nat.add_assoc]

theorem decodeEntries_eq {region : Slice} {count base : Nat} {entries : List LogEntry}
    {mirror : List DurableEntry} :
    decodeEntries region count base = .ok (entries, mirror) ↔
      entries.length = count ∧ ContiguousFrom base entries ∧
        (∀ entry ∈ entries, entry.Encodable ∧ entry.packedLen < u32Bound) ∧
        region.bytes = frames entries ∧ mirror = mirrorFrom 0 entries := by
  simp only [decodeEntries, bind_eq_ok, Prod.exists, decodeFrom_eq (Nat.zero_le _)]
  constructor
  · rintro ⟨entries', mirror', stop, ⟨hlength, hrun, hall, hframes, rfl, rfl⟩, hok⟩
    split at hok
    · cases hok
    · rename_i hstop
      cases hok
      rw [Nat.zero_add, not_not] at hstop
      rw [hstop, window, List.drop_zero, List.take_length] at hframes
      exact ⟨hlength, hrun, hall, hframes, rfl⟩
  · rintro ⟨hlength, hrun, hall, hframes, rfl⟩
    refine ⟨entries, _, _, ⟨hlength, hrun, hall, ?_, rfl, rfl⟩, ?_⟩
    · rw [window, List.drop_zero, hframes, List.take_length]
    · rw [hframes, Nat.zero_add, if_neg (not_not.mpr rfl)]

/-- The mirror of framable entries says where their frames end. -/
theorem mirrorFrom_end {offset : Nat} {entries : List LogEntry}
    (h : ∀ entry ∈ entries, Framable entry) :
    ((mirrorFrom offset entries).getLast?.map fun entry => entry.offset + entry.len).getD offset =
      offset + (frames entries).length := by
  induction entries generalizing offset with
  | nil => rfl
  | cons entry entries ih =>
    obtain ⟨hframable, hrest⟩ := List.forall_mem_cons.mp h
    have hlen : (durableEntry offset entry).len = (frameBytes entry).length := by
      unfold Framable at hframable
      rw [durableEntry, frameBytes_length, Nat.mod_eq_of_lt hframable, Nat.add_comm]
    have htail := @ih (offset + (frameBytes entry).length) hrest
    rw [frames_cons, List.length_append, ← Nat.add_assoc, ← htail, mirrorFrom]
    cases hmirror : mirrorFrom (offset + (frameBytes entry).length) entries with
    | nil => rw [List.getLast?_singleton, Option.map_some, Option.getD_some, hlen]; rfl
    | cons next rest => rw [List.getLast?_cons_cons, List.getLast?_cons]; rfl

theorem mirrorFrom_take (offset : Nat) (entries : List LogEntry) (n : Nat) :
    (mirrorFrom offset entries).take n = mirrorFrom offset (entries.take n) := by
  induction entries generalizing offset n with
  | nil => rw [mirrorFrom, List.take_nil, List.take_nil, mirrorFrom]
  | cons entry entries ih =>
    cases n with
    | zero => rw [List.take_zero, List.take_zero, mirrorFrom]
    | succ n => rw [mirrorFrom, List.take_succ_cons, ih, List.take_succ_cons, mirrorFrom]

/-- Two frames at one place are of one entry. -/
theorem frameBytes_unique {region : List UInt8} {pos : Nat} {front back : LogEntry}
    (hpos : pos ≤ region.length) (hfront : front.Encodable ∧ front.packedLen < u32Bound)
    (hback : back.Encodable ∧ back.packedLen < u32Bound)
    (h : window region pos (frameBytes front).length = frameBytes front)
    (h' : window region pos (frameBytes back).length = frameBytes back) : front = back := by
  obtain ⟨hword, hpack⟩ := (window_append hpos).mp h
  obtain ⟨hword', hpack'⟩ := (window_append hpos).mp h'
  have hlen : front.packedLen = back.packedLen :=
    (getUint_of_window hfront.2 hword).symm.trans (getUint_of_window hback.2 hword')
  have hpacked : front.pack = back.pack := by
    rw [PackWriter.u32, beBytes_length, LogEntry.pack_length] at hpack hpack'
    rw [← hpack, ← hpack', hlen]
  have hbound : u32Bound ≤ sliceBound := by decide
  have hsized : front.pack.length < sliceBound := by
    rw [LogEntry.pack_length]
    exact Nat.lt_of_lt_of_le hfront.2 hbound
  have hread : unpackFrom LogEntry.unpack ⟨front.pack, hsized⟩ = .ok front :=
    (unpackFrom_eq_ok LogEntry.unpack_decodes).mpr ⟨hfront.1, rfl⟩
  have hread' : unpackFrom LogEntry.unpack ⟨front.pack, hsized⟩ = .ok back :=
    (unpackFrom_eq_ok LogEntry.unpack_decodes).mpr ⟨hback.1, hpacked⟩
  exact Except.ok.inj (hread.symm.trans hread')

end Maelstrom

end UvrrCore
