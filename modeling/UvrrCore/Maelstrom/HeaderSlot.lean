import UvrrCore.FixedLayout
import UvrrCore.Maelstrom.Latch
import UvrrCore.TextLines
import UvrrCore.Wire
import Mathlib.Data.Fin.VecNotation

/-!
# The header slot of the state file

The state file of the bench opens with two header slots. A slot is a record of fixed layout: the
four marker copies, the genesis roster in an area of its own, the persisted progress and what the
journal region holds, under a checksum over all of it. A buffer that is no slot is a torn or an
uncommitted one, so the reader answers with nothing and never fails.

The reader takes no roster that the writer would not be given: a name is printable and stands once.
The writer checks only that the roster fits.

## Main results

* `slot_round_trip`: a slot that encodes decodes to itself exactly if its roster is lawful, and
  what decodes is a slot that encodes.
* `decode_set`: a slot with one byte changed is no slot.
-/

namespace UvrrCore

open ByteCodec FixedLayout
open TextLines (utf8 fromUtf8 fromUtf8_utf8 utf8_of_fromUtf8)

/-! ### Rolling checksums -/

section

variable {α σ : Type} {step : σ → α → σ}

theorem foldl_injective (hstate : ∀ a, Function.Injective fun s => step s a) (xs : List α) :
    Function.Injective fun s => xs.foldl step s := by
  induction xs with
  | nil => exact fun s t h => h
  | cons x xs ih => exact fun s t h => hstate x (ih h)

/-- A checksum whose step can be undone tells two inputs apart that differ in one place. -/
theorem foldl_set_ne (hstate : ∀ a, Function.Injective fun s => step s a)
    (hinput : ∀ s, Function.Injective (step s)) {xs : List α} {i : Nat} (hi : i < xs.length)
    {a : α} (ha : xs[i] ≠ a) (s : σ) : (xs.set i a).foldl step s ≠ xs.foldl step s := by
  induction xs generalizing i s with
  | nil => cases hi
  | cons x xs ih =>
    cases i with
    | zero => exact fun heq => ha (hinput s (foldl_injective hstate xs heq)).symm
    | succ i => exact ih (Nat.lt_of_succ_lt_succ hi) ha (step s x)

end

/-- FNV-1a, 64-bit. -/
def fnv1aStep (hash : UInt64) (byte : UInt8) : UInt64 := (hash ^^^ byte.toUInt64) * 0x100000001b3

def fnv1a (bytes : List UInt8) : UInt64 := bytes.foldl fnv1aStep 0xcbf29ce484222325

/-- The prime is odd, so multiplying by it can be undone. -/
theorem mul_fnvPrime_injective : Function.Injective fun hash : UInt64 => hash * 0x100000001b3 := by
  intro a b h
  have hinverse : (0x100000001b3 : UInt64) * 14886173955864302971 = 1 := by decide
  have hmul := congrArg (fun hash : UInt64 => hash * 14886173955864302971) h
  simp only [UInt64.mul_assoc, hinverse, UInt64.mul_one] at hmul
  exact hmul

theorem fnv1a_set_ne {bytes : List UInt8} {i : Nat} (hi : i < bytes.length) {byte : UInt8}
    (hbyte : bytes[i] ≠ byte) : fnv1a (bytes.set i byte) ≠ fnv1a bytes := by
  refine foldl_set_ne ?_ ?_ hi hbyte _
  · exact fun byte a b h => (UInt64.xor_left_inj _).mp (mul_fnvPrime_injective h)
  · exact fun hash a b h =>
      UInt8.toUInt64_inj.mp ((UInt64.xor_right_inj _).mp (mul_fnvPrime_injective h))

/-! ### Layout -/

namespace Maelstrom

/-- The letters UVRS. -/
def magic : Nat := 0x55565253

def version : Nat := 4

/-- The area of the roster inside a slot. -/
def rosterArea : Nat := 4096

def atSeq : Nat := 8

def atCopies : Nat := atSeq + 8

def atRoster : Nat := atCopies + 4 * 5

def atCurrent : Nat := atRoster + rosterArea

def atRetained : Nat := atCurrent + 8

def atStatus : Nat := atRetained + 8

def atAccepted : Nat := atStatus + 4

def atCommitted : Nat := atAccepted + 8

def atApplied : Nat := atCommitted + 8

def atCheckpoint : Nat := atApplied + 8

def atRevision : Nat := atCheckpoint + 8

def atFault : Nat := atRevision + 8

def atBase : Nat := atFault + 1

def atCount : Nat := atBase + 8

def atBytes : Nat := atCount + 8

def atChecksum : Nat := atBytes + 8

def headerSize : Nat := atChecksum + 8

/-! ### Words -/

def markerWord : Marker → Nat
  | .stopping => 0
  | .stopped => 1
  | .restarting => 2
  | .joining => 3

def markerFromWord : Nat → Option Marker
  | 0 => some .stopping
  | 1 => some .stopped
  | 2 => some .restarting
  | 3 => some .joining
  | _ => none

def statusWord : Status → Nat
  | .normal => 0
  | .viewChange => 1
  | .restarting => 2
  | .joining => 4
  | .replaying => 3

def statusFromWord : Nat → Option Status
  | 0 => some .normal
  | 1 => some .viewChange
  | 2 => some .restarting
  | 3 => some .replaying
  | 4 => some .joining
  | _ => none

/-- The fault word, 0 for no fault. -/
def faultWord : Option Fault → Nat
  | none => 0
  | some .illegalTransition => 1
  | some .indeterminatePersistence => 2
  | some .quorumObligation => 3
  | some .progressJournalDivergence => 4
  | some .hostDeclared => 5

def faultFromWord : Nat → Option (Option Fault)
  | 0 => some none
  | 1 => some (some .illegalTransition)
  | 2 => some (some .indeterminatePersistence)
  | 3 => some (some .quorumObligation)
  | 4 => some (some .progressJournalDivergence)
  | 5 => some (some .hostDeclared)
  | _ => none

theorem markerFromWord_eq {word : Nat} {marker : Marker} :
    markerFromWord word = some marker ↔ word = markerWord marker := by
  constructor
  · intro h
    unfold markerFromWord at h
    split at h
    all_goals cases h
    all_goals rfl
  · rintro rfl
    cases marker
    all_goals rfl

theorem statusFromWord_eq {word : Nat} {status : Status} :
    statusFromWord word = some status ↔ word = statusWord status := by
  constructor
  · intro h
    unfold statusFromWord at h
    split at h
    all_goals cases h
    all_goals rfl
  · rintro rfl
    cases status
    all_goals rfl

theorem faultFromWord_eq {word : Nat} {fault : Option Fault} :
    faultFromWord word = some fault ↔ word = faultWord fault := by
  constructor
  · intro h
    unfold faultFromWord at h
    split at h
    all_goals cases h
    all_goals rfl
  · rintro rfl
    cases fault with
    | none => rfl
    | some fault =>
      cases fault
      all_goals rfl

theorem markerWord_lt (marker : Marker) : markerWord marker < 256 ^ 1 := by
  cases marker
  all_goals decide

theorem statusWord_lt (status : Status) : statusWord status < 256 ^ 4 := by
  cases status
  all_goals decide

theorem faultWord_lt (fault : Option Fault) : faultWord fault < 256 ^ 1 := by
  cases fault with
  | none => decide
  | some fault =>
    cases fault
    all_goals decide

/-! ### Rosters -/

def isGraphic (byte : UInt8) : Bool := 0x21 ≤ byte && byte ≤ 0x7e

/-- A roster name is printable and new. -/
def nameChecked (name : String) (seen : List String) : Option String :=
  if utf8 name = [] ∨ ¬(utf8 name).all isGraphic then none
  else if name ∈ seen then none
  else some name

/-- The size of a roster in its area, without the count. -/
def namesLen (roster : List String) : Nat :=
  (roster.map fun name => 4 + (utf8 name).length).sum

def nameWrites (pos : Nat) : List String → List Write
  | [] => []
  | name :: names =>
    ⟨pos, PackWriter.u32 (utf8 name).length⟩ :: ⟨pos + 4, utf8 name⟩ ::
      nameWrites (pos + (4 + (utf8 name).length)) names

/-- So many names from an offset on, behind those seen before. -/
def decodeNames (buf : List UInt8) : (count pos : Nat) → List String → Option (List String)
  | 0, _, roster => some roster
  | count + 1, pos, roster =>
    let len := getUint 4 buf pos
    let stop := pos + 4 + len
    if atRoster + rosterArea < stop then none
    else
      match fromUtf8 (window buf (stop - len) len) with
      | none => none
      | some name =>
        match nameChecked name roster with
        | none => none
        | some name => decodeNames buf count stop (roster ++ [name])

/-- **A roster the reader takes**: printable names, each once. -/
structure RosterLawful (roster : List String) : Prop where
  graphic : ∀ name ∈ roster, utf8 name ≠ [] ∧ (utf8 name).all isGraphic
  nodup : roster.Nodup

theorem nameChecked_eq {name name' : String} {seen : List String} :
    nameChecked name seen = some name' ↔
      name' = name ∧ (utf8 name ≠ [] ∧ (utf8 name).all isGraphic) ∧ name ∉ seen := by
  unfold nameChecked
  split
  · rename_i hbad
    constructor
    · intro h
      cases h
    · rintro ⟨-, hgood, -⟩
      rcases hbad with hnil | hall
      · exact absurd hnil hgood.1
      · exact absurd hgood.2 hall
  · rename_i hgood
    push Not at hgood
    split
    · rename_i hseen
      constructor
      · intro h
        cases h
      · exact fun h => absurd hseen h.2.2
    · rename_i hnew
      constructor
      · intro h
        cases h
        exact ⟨rfl, hgood, hnew⟩
      · rintro ⟨rfl, -, -⟩
        rfl

theorem namesLen_cons (name : String) (names : List String) :
    namesLen (name :: names) = 4 + (utf8 name).length + namesLen names := by
  rw [namesLen, List.map_cons, List.sum_cons]
  rfl

theorem length_le_namesLen (names : List String) : names.length ≤ namesLen names := by
  induction names with
  | nil => exact Nat.le_refl _
  | cons name names ih =>
    rw [namesLen_cons, List.length_cons]
    omega

theorem nameWrites_ordered (pos : Nat) (names : List String) :
    Ordered pos (nameWrites pos names) (pos + namesLen names) := by
  induction names generalizing pos with
  | nil => exact Nat.le_refl _
  | cons name names ih =>
    have hrest := ih (pos + (4 + (utf8 name).length))
    rw [Nat.add_assoc, ← namesLen_cons] at hrest
    refine ⟨Nat.le_refl _, ?_, ?_⟩
    · rw [Write.stop, PackWriter.u32, beBytes_length]
    · rwa [Write.stop, Nat.add_assoc]

/-- **What the reader makes of a roster area**: the new and printable names that stand there. -/
theorem decodeNames_eq {buf : List UInt8} (hroom : atRoster + rosterArea ≤ buf.length)
    {count pos : Nat} {seen roster : List String} :
    decodeNames buf count pos seen = some roster ∧ pos ≤ atRoster + rosterArea ↔
      ∃ names, names.length = count ∧ roster = seen ++ names ∧
        pos + namesLen names ≤ atRoster + rosterArea ∧ Stand buf (nameWrites pos names) ∧
        (∀ name ∈ names, utf8 name ≠ [] ∧ (utf8 name).all isGraphic) ∧
        names.Nodup ∧ ∀ name ∈ names, name ∉ seen := by
  induction count generalizing pos seen with
  | zero =>
    constructor
    · rintro ⟨h, hpos⟩
      cases h
      exact ⟨[], rfl, (List.append_nil _).symm, hpos, fun w hw => absurd hw List.not_mem_nil,
        fun name hname => absurd hname List.not_mem_nil, List.nodup_nil,
        fun name hname => absurd hname List.not_mem_nil⟩
    · rintro ⟨names, hlength, rfl, hpos, -⟩
      obtain rfl := List.length_eq_zero_iff.mp hlength
      exact ⟨congrArg some (List.append_nil _).symm, hpos⟩
  | succ count ih =>
    unfold decodeNames
    simp only
    constructor
    · rintro ⟨h, -⟩
      split at h
      · cases h
      · rename_i hstop
        have hle := Nat.not_lt.mp hstop
        split at h
        · cases h
        · rename_i name hname
          split at h
          · cases h
          · rename_i name' hchecked
            obtain ⟨rfl, hgraphic, hnew⟩ := nameChecked_eq.mp hchecked
            obtain ⟨names, hlength, rfl, hfits, hstand, hall, hnodup, hfresh⟩ := ih.mp ⟨h, hle⟩
            have hbytes := utf8_of_fromUtf8 hname
            rw [Nat.add_sub_cancel] at hbytes
            have hlen : (utf8 name').length = getUint 4 buf pos := by
              rw [hbytes, window_length (by omega)]
            have hfield : window buf pos 4 = PackWriter.u32 (utf8 name').length := by
              rw [hlen, getUint, PackWriter.u32, beBytes_beValue (window_length (by omega))]
            rw [← hlen] at hfits hstand hbytes
            refine ⟨name' :: names, congrArg (· + 1) hlength, List.append_assoc _ _ _, ?_, ?_,
              List.forall_mem_cons.mpr ⟨hgraphic, hall⟩, List.nodup_cons.mpr ⟨?_, hnodup⟩,
              List.forall_mem_cons.mpr ⟨hnew, ?_⟩⟩
            · rw [namesLen_cons]
              omega
            · rw [nameWrites, stand_cons, stand_cons]
              refine ⟨?_, hbytes.symm, ?_⟩
              · rwa [PackWriter.u32, beBytes_length]
              · rwa [← Nat.add_assoc]
            · exact fun hmem => hfresh name' hmem
                (List.mem_append_right _ (List.mem_singleton_self _))
            · exact fun other hmem hseen => hfresh other hmem (List.mem_append_left _ hseen)
    · rintro ⟨names, hlength, rfl, hfits, hstand, hall, hnodup, hfresh⟩
      cases names with
      | nil => cases hlength
      | cons name names =>
        rw [namesLen_cons] at hfits
        rw [nameWrites, stand_cons, stand_cons] at hstand
        obtain ⟨hfield, hbytes, hstand⟩ := hstand
        obtain ⟨hgraphic, hall⟩ := List.forall_mem_cons.mp hall
        obtain ⟨hnew, hfresh⟩ := List.forall_mem_cons.mp hfresh
        obtain ⟨hfirst, hnodup⟩ := List.nodup_cons.mp hnodup
        rw [PackWriter.u32, beBytes_length] at hfield
        have hsmall : atRoster + rosterArea < 256 ^ 4 := by decide
        have hlen : getUint 4 buf pos = (utf8 name).length := by
          rw [getUint, hfield, beValue_beBytes (by omega)]
        have hfresh' : ∀ other ∈ names, other ∉ seen ++ [name] := by
          intro other hmem hseen
          rcases List.mem_append.mp hseen with hseen | heq
          · exact hfresh other hmem hseen
          · rw [List.mem_singleton.mp heq] at hmem
            exact hfirst hmem
        rw [← Nat.add_assoc] at hstand
        have hrest := ih.mpr ⟨names, Nat.succ.inj hlength,
          (List.append_assoc seen [name] names).symm, by omega, hstand, hall, hnodup, hfresh'⟩
        have hchecked : nameChecked name seen = some name :=
          nameChecked_eq.mpr ⟨rfl, hgraphic, hnew⟩
        refine ⟨?_, by omega⟩
        rw [hlen, if_neg (by omega), Nat.add_sub_cancel, hbytes, fromUtf8_utf8]
        simp only [hchecked]
        exact hrest.1

/-! ### Slots -/

/-- One header slot, without its checksum. -/
structure SlotBytes where
  seq : Nat
  copies : SuperblockCopies
  roster : List String
  progress : PersistedProgress
  base : Nat
  count : Nat
  bytes : Nat

inductive EncodeError where
  | rosterTooLong (framed : Nat)
  | nameTooLong
deriving DecidableEq, Repr

def copyWrites (copy : CopyState) (index : Nat) : List Write :=
  [⟨atCopies + index * 5, PackWriter.u32 copy.identity⟩,
    ⟨atCopies + index * 5 + 4, PackWriter.u8 (markerWord copy.marker)⟩]

def decodeCopy (buf : List UInt8) (index : Nat) : Option CopyState := do
  let marker ← markerFromWord (getUint 1 buf (atCopies + index * 5 + 4))
  return ⟨getUint 4 buf (atCopies + index * 5), marker⟩

namespace SlotBytes

def copiesWrites (copies : SuperblockCopies) : List Write :=
  copyWrites (copies.copies 0) 0 ++ (copyWrites (copies.copies 1) 1 ++
    (copyWrites (copies.copies 2) 2 ++ copyWrites (copies.copies 3) 3))

def ballotWrites (pos : Nat) (b : Ballot) : List Write :=
  [⟨pos, PackWriter.u32 b.era⟩, ⟨pos + 4, PackWriter.u32 b.view⟩]

/-- The writes of the fields behind the roster area, in their order. -/
def tailWrites (slot : SlotBytes) : List Write :=
  ballotWrites atCurrent slot.progress.current ++ (ballotWrites atRetained slot.progress.retained ++
    [⟨atStatus, PackWriter.u32 (statusWord slot.progress.status)⟩,
      ⟨atAccepted, PackWriter.u64 slot.progress.accepted⟩,
      ⟨atCommitted, PackWriter.u64 slot.progress.committed⟩,
      ⟨atApplied, PackWriter.u64 slot.progress.applied⟩,
      ⟨atCheckpoint, PackWriter.u64 slot.progress.checkpoint⟩,
      ⟨atRevision, PackWriter.u64 slot.progress.revision⟩,
      ⟨atFault, PackWriter.u8 (faultWord slot.progress.fault)⟩,
      ⟨atBase, PackWriter.u64 slot.base⟩,
      ⟨atCount, PackWriter.u64 slot.count⟩,
      ⟨atBytes, PackWriter.u64 slot.bytes⟩])

/-- The writes of all fields, in their order. -/
def writes (slot : SlotBytes) : List Write :=
  [⟨0, PackWriter.u32 magic⟩, ⟨4, PackWriter.u32 version⟩, ⟨atSeq, PackWriter.u64 slot.seq⟩] ++
    (copiesWrites slot.copies ++ (⟨atRoster, PackWriter.u32 slot.roster.length⟩ ::
      nameWrites (atRoster + 4) slot.roster ++ slot.tailWrites))

/-- The slot under its checksum, over the zeros of an empty one. -/
def image (slot : SlotBytes) : List UInt8 :=
  let body := putAll (List.replicate headerSize 0) slot.writes
  put body atChecksum (PackWriter.u64 (fnv1a (body.take atChecksum)).toNat)

def encode (slot : SlotBytes) : Except EncodeError (List UInt8) :=
  let framed := 4 + namesLen slot.roster
  if rosterArea < framed then .error (.rosterTooLong framed)
  else if slot.roster.any fun name => u32Bound ≤ (utf8 name).length then .error .nameTooLong
  else .ok slot.image

/-- One slot read. Nothing is an uncommitted or a torn slot. -/
def decode (buf : List UInt8) : Option SlotBytes :=
  if getUint 4 buf 0 ≠ magic ∨ getUint 4 buf 4 ≠ version then none
  else if getUint 8 buf atChecksum ≠ (fnv1a (buf.take atChecksum)).toNat then none
  else do
    let a ← decodeCopy buf 0
    let b ← decodeCopy buf 1
    let d ← decodeCopy buf 2
    let e ← decodeCopy buf 3
    let roster ← decodeNames buf (getUint 4 buf atRoster) (atRoster + 4) []
    let status ← statusFromWord (getUint 4 buf atStatus)
    let fault ← faultFromWord (getUint 1 buf atFault)
    return {
      seq := getUint 8 buf atSeq
      copies := ⟨![a, b, d, e]⟩
      roster
      progress := {
        current := ⟨getUint 4 buf atCurrent, getUint 4 buf (atCurrent + 4)⟩
        retained := ⟨getUint 4 buf atRetained, getUint 4 buf (atRetained + 4)⟩
        status
        accepted := getUint 8 buf atAccepted
        committed := getUint 8 buf atCommitted
        applied := getUint 8 buf atApplied
        checkpoint := getUint 8 buf atCheckpoint
        revision := getUint 8 buf atRevision
        fault }
      base := getUint 8 buf atBase
      count := getUint 8 buf atCount
      bytes := getUint 8 buf atBytes }

/-- The fields are values of their types. -/
structure InRange (slot : SlotBytes) : Prop where
  seq : slot.seq < u64Bound
  identities : ∀ index, (slot.copies.copies index).identity < u32Bound
  current : slot.progress.current.Encodable
  retained : slot.progress.retained.Encodable
  accepted : slot.progress.accepted < u64Bound
  committed : slot.progress.committed < u64Bound
  applied : slot.progress.applied < u64Bound
  checkpoint : slot.progress.checkpoint < u64Bound
  revision : slot.progress.revision < u64Bound
  base : slot.base < u64Bound
  count : slot.count < u64Bound
  bytes : slot.bytes < u64Bound

theorem copiesWrites_ordered (copies : SuperblockCopies) :
    Ordered atCopies (copiesWrites copies) atRoster := by
  simp [Ordered, copiesWrites, copyWrites, Write.stop, PackWriter.u32, PackWriter.u8, atRoster]

theorem tailWrites_ordered (slot : SlotBytes) :
    Ordered atCurrent slot.tailWrites atChecksum := by
  simp [Ordered, tailWrites, ballotWrites, Write.stop, PackWriter.u32, PackWriter.u8,
    PackWriter.u64, atRetained, atStatus, atAccepted, atCommitted, atApplied, atCheckpoint,
    atRevision, atFault, atBase, atCount, atBytes, atChecksum]

/-- Where the roster fits, no write runs into the next. -/
theorem writes_ordered {slot : SlotBytes} (hfits : 4 + namesLen slot.roster ≤ rosterArea) :
    Ordered 0 slot.writes atChecksum := by
  have hnames := nameWrites_ordered (atRoster + 4) slot.roster
  have harea : Ordered (atRoster + 4 + namesLen slot.roster) slot.tailWrites atChecksum := by
    have htail := slot.tailWrites_ordered
    have hstart : atRoster + 4 + namesLen slot.roster ≤ atCurrent := by
      unfold atCurrent
      omega
    exact ⟨hstart, htail.2⟩
  have hroster : Ordered atRoster (⟨atRoster, PackWriter.u32 slot.roster.length⟩ ::
      nameWrites (atRoster + 4) slot.roster ++ slot.tailWrites) atChecksum := by
    refine ⟨Nat.le_refl _, ?_⟩
    rw [Write.stop, PackWriter.u32, beBytes_length]
    exact ordered_append hnames harea
  refine ordered_append ?_ (ordered_append (copiesWrites_ordered slot.copies) hroster)
  simp [Ordered, Write.stop, PackWriter.u32, PackWriter.u64, atSeq, atCopies]

theorem body_length {slot : SlotBytes} (hfits : 4 + namesLen slot.roster ≤ rosterArea) :
    (putAll (List.replicate headerSize 0) slot.writes).length = headerSize := by
  rw [putAll_length (writes_ordered hfits) (by rw [List.length_replicate]; decide),
    List.length_replicate]

theorem image_length {slot : SlotBytes} (hfits : 4 + namesLen slot.roster ≤ rosterArea) :
    slot.image.length = headerSize := by
  unfold image
  simp only
  rw [put_length, body_length hfits]
  rw [body_length hfits, PackWriter.u64, beBytes_length]
  decide

/-- The checksum of a slot stands behind its fields. -/
theorem image_checksum {slot : SlotBytes} (hfits : 4 + namesLen slot.roster ≤ rosterArea) :
    getUint 8 slot.image atChecksum = (fnv1a (slot.image.take atChecksum)).toNat := by
  have hroom : atChecksum ≤ (putAll (List.replicate headerSize 0) slot.writes).length := by
    rw [body_length hfits]
    decide
  unfold image
  simp only
  rw [take_put hroom (Nat.le_refl _), getUint]
  have hwindow := window_put hroom (PackWriter.u64
    (fnv1a ((putAll (List.replicate headerSize 0) slot.writes).take atChecksum)).toNat)
  rw [PackWriter.u64, beBytes_length] at hwindow
  rw [PackWriter.u64, hwindow, beValue_beBytes (UInt64.toNat_lt _)]

/-- And every field stands in it. -/
theorem image_stand {slot : SlotBytes} (hfits : 4 + namesLen slot.roster ≤ rosterArea) :
    Stand slot.image slot.writes := by
  have hordered := writes_ordered hfits
  have hstand := putAll_stand hordered
    (show atChecksum ≤ (List.replicate headerSize (0 : UInt8)).length by
      rw [List.length_replicate]
      decide)
  refine hstand.put hordered (Nat.le_refl _) ?_
  rw [body_length hfits]
  decide

theorem decodeCopy_eq {buf : List UInt8} (hlength : buf.length = headerSize) {index : Nat}
    (hindex : index < 4) {copy : CopyState} :
    decodeCopy buf index = some copy ↔
      copy.identity < u32Bound ∧ Stand buf (copyWrites copy index) := by
  have hroom : atCopies + index * 5 + 5 ≤ buf.length := by
    have : atCopies + 4 * 5 + 5 ≤ headerSize := by decide
    omega
  unfold decodeCopy copyWrites
  simp only [stand_cons, PackWriter.u32, PackWriter.u8, stand_nil, and_true,
    Option.bind_eq_bind, Option.bind_eq_some_iff, markerFromWord_eq, Option.pure_def,
    Option.some.injEq]
  constructor
  · rintro ⟨marker, hmarker, rfl⟩
    refine ⟨getUint_lt 4 buf _, window_getUint (by omega), ?_⟩
    rw [← hmarker]
    exact window_getUint (by omega)
  · rintro ⟨hidentity, hfield, hmarker⟩
    refine ⟨copy.marker, getUint_of_window (markerWord_lt _) hmarker, ?_⟩
    rw [getUint_of_window hidentity hfield]

/-- The fields of the four copies. -/
theorem copies_eq {buf : List UInt8} (hlength : buf.length = headerSize)
    {copies : SuperblockCopies} :
    (∃ a b d e, decodeCopy buf 0 = some a ∧ decodeCopy buf 1 = some b ∧
        decodeCopy buf 2 = some d ∧ decodeCopy buf 3 = some e ∧ copies = ⟨![a, b, d, e]⟩) ↔
      (∀ index, (copies.copies index).identity < u32Bound) ∧ Stand buf (copiesWrites copies) := by
  rw [copiesWrites, stand_append, stand_append, stand_append]
  constructor
  · rintro ⟨a, b, d, e, ha, hb, hd, he, rfl⟩
    obtain ⟨ha, ha'⟩ := (decodeCopy_eq hlength (by decide)).mp ha
    obtain ⟨hb, hb'⟩ := (decodeCopy_eq hlength (by decide)).mp hb
    obtain ⟨hd, hd'⟩ := (decodeCopy_eq hlength (by decide)).mp hd
    obtain ⟨he, he'⟩ := (decodeCopy_eq hlength (by decide)).mp he
    exact ⟨Fin.forall_fin_succ.mpr ⟨ha, Fin.forall_fin_succ.mpr ⟨hb, Fin.forall_fin_succ.mpr
      ⟨hd, Fin.forall_fin_succ.mpr ⟨he, fun i => i.elim0⟩⟩⟩⟩, ha', hb', hd', he'⟩
  · rintro ⟨hall, ha, hb, hd, he⟩
    refine ⟨_, _, _, _, (decodeCopy_eq hlength (by decide)).mpr ⟨hall 0, ha⟩,
      (decodeCopy_eq hlength (by decide)).mpr ⟨hall 1, hb⟩,
      (decodeCopy_eq hlength (by decide)).mpr ⟨hall 2, hd⟩,
      (decodeCopy_eq hlength (by decide)).mpr ⟨hall 3, he⟩, ?_⟩
    obtain ⟨copies⟩ := copies
    exact congrArg SuperblockCopies.mk (funext (Fin.forall_fin_succ.mpr ⟨rfl,
      Fin.forall_fin_succ.mpr ⟨rfl, Fin.forall_fin_succ.mpr ⟨rfl, Fin.forall_fin_succ.mpr
        ⟨rfl, fun i => i.elim0⟩⟩⟩⟩))

/-- The fields of the roster area. -/
theorem roster_eq {buf : List UInt8} (hlength : buf.length = headerSize) {roster : List String} :
    decodeNames buf (getUint 4 buf atRoster) (atRoster + 4) [] = some roster ↔
      RosterLawful roster ∧ 4 + namesLen roster ≤ rosterArea ∧
        Stand buf (⟨atRoster, PackWriter.u32 roster.length⟩ ::
          nameWrites (atRoster + 4) roster) := by
  have hroom : atRoster + rosterArea ≤ buf.length := by
    rw [hlength]
    decide
  have hsmall : rosterArea < 256 ^ 4 := by decide
  have hfour : 4 ≤ rosterArea := by decide
  rw [stand_cons]
  constructor
  · intro h
    obtain ⟨names, hlength', rfl, hfits, hstand, hgraphic, hnodup, -⟩ :=
      (decodeNames_eq hroom).mp ⟨h, by omega⟩
    refine ⟨⟨hgraphic, hnodup⟩, by omega, ?_, hstand⟩
    rw [hlength']
    exact window_getUint (show atRoster + 4 ≤ buf.length by omega)
  · rintro ⟨hlawful, hfits, hcount, hstand⟩
    have hcount' := length_le_namesLen roster
    rw [getUint_of_window (by omega) hcount]
    exact ((decodeNames_eq hroom).mpr ⟨roster, rfl, rfl, by omega, hstand, hlawful.graphic,
      hlawful.nodup, fun name _ hname => absurd hname List.not_mem_nil⟩).1

/-- **What the reader of a slot answers**: the fields that stand there, under their checksum. -/
theorem decode_eq {buf : List UInt8} (hlength : buf.length = headerSize) {slot : SlotBytes} :
    decode buf = some slot ↔
      slot.InRange ∧ RosterLawful slot.roster ∧ 4 + namesLen slot.roster ≤ rosterArea ∧
        Stand buf slot.writes ∧
        getUint 8 buf atChecksum = (fnv1a (buf.take atChecksum)).toNat := by
  have room : ∀ {pos width}, pos + width ≤ headerSize → pos + width ≤ buf.length :=
    fun h => h.trans_eq hlength.symm
  unfold decode writes
  simp only [Option.bind_eq_bind, stand_append]
  constructor
  · intro h
    split at h
    · cases h
    · split at h
      · cases h
      · rename_i hopening hchecksum
        simp only [Option.bind_eq_some_iff, statusFromWord_eq, faultFromWord_eq, Option.pure_def,
          Option.some.injEq] at h
        obtain ⟨a, ha, b, hb, d, hd, e, he, roster, hroster, status, hstatus, fault, hfault,
          rfl⟩ := h
        obtain ⟨hcopies, hcopies'⟩ := (copies_eq hlength).mp ⟨a, b, d, e, ha, hb, hd, he, rfl⟩
        obtain ⟨hlawful, hfits, hstand⟩ := (roster_eq hlength).mp hroster
        push Not at hopening hchecksum
        have hmagic : window buf 0 (PackWriter.u32 magic).length = PackWriter.u32 magic := by
          rw [← hopening.1]
          exact window_getUint (room (by decide))
        have hversion : window buf 4 (PackWriter.u32 version).length = PackWriter.u32 version := by
          rw [← hopening.2]
          exact window_getUint (room (by decide))
        refine ⟨⟨getUint_lt 8 buf _, hcopies, ⟨getUint_lt 4 buf _, getUint_lt 4 buf _⟩,
          ⟨getUint_lt 4 buf _, getUint_lt 4 buf _⟩, getUint_lt 8 buf _, getUint_lt 8 buf _,
          getUint_lt 8 buf _, getUint_lt 8 buf _, getUint_lt 8 buf _, getUint_lt 8 buf _,
          getUint_lt 8 buf _, getUint_lt 8 buf _⟩, hlawful, hfits, ⟨?_, hcopies', hstand, ?_⟩,
          hchecksum⟩
        · have hseq := window_getUint (room (show atSeq + 8 ≤ headerSize by decide))
          exact stand_cons.mpr ⟨hmagic, stand_cons.mpr ⟨hversion, stand_cons.mpr
            ⟨hseq, stand_nil buf⟩⟩⟩
        · unfold tailWrites ballotWrites
          simp only [stand_append, stand_cons, stand_nil, and_true, ← hstatus, ← hfault]
          refine ⟨⟨window_getUint ?_, window_getUint ?_⟩, ⟨window_getUint ?_, window_getUint ?_⟩,
            window_getUint ?_, window_getUint ?_, window_getUint ?_, window_getUint ?_,
            window_getUint ?_, window_getUint ?_, window_getUint ?_, window_getUint ?_,
            window_getUint ?_, window_getUint ?_⟩
          all_goals exact room (by decide)
  · rintro ⟨hrange, hlawful, hfits, ⟨hopening, hcopies, hroster, htail⟩, hchecksum⟩
    obtain ⟨a, b, d, e, ha, hb, hd, he, hcopies⟩ :=
      (copies_eq hlength).mpr ⟨hrange.identities, hcopies⟩
    simp only [stand_cons] at hopening
    obtain ⟨hmagic, hversion, hseq, -⟩ := hopening
    unfold tailWrites ballotWrites at htail
    simp only [stand_append, stand_cons, stand_nil, and_true] at htail
    obtain ⟨⟨hera, hview⟩, ⟨hera', hview'⟩, hstatus, haccepted, hcommitted, happlied, hcheckpoint,
      hrevision, hfault, hbase, hcount, hbytes⟩ := htail
    rw [getUint_of_window (by decide) hmagic, getUint_of_window (by decide) hversion,
      if_neg (by simp), if_neg (by simp [hchecksum]), getUint_of_window hrange.seq hseq,
      getUint_of_window hrange.current.1 hera, getUint_of_window hrange.current.2 hview,
      getUint_of_window hrange.retained.1 hera', getUint_of_window hrange.retained.2 hview',
      getUint_of_window (statusWord_lt _) hstatus, getUint_of_window hrange.accepted haccepted,
      getUint_of_window hrange.committed hcommitted, getUint_of_window hrange.applied happlied,
      getUint_of_window hrange.checkpoint hcheckpoint, getUint_of_window hrange.revision hrevision,
      getUint_of_window (faultWord_lt _) hfault, getUint_of_window hrange.base hbase,
      getUint_of_window hrange.count hcount, getUint_of_window hrange.bytes hbytes, ha, hb, hd, he,
      (roster_eq hlength).mpr ⟨hlawful, hfits, hroster⟩, statusFromWord_eq.mpr rfl,
      faultFromWord_eq.mpr rfl]
    simp only [Option.bind_some, ← hcopies]
    rfl

/-! ### The round trip -/

theorem encode_eq_ok {slot : SlotBytes} {buf : List UInt8} :
    slot.encode = .ok buf ↔ 4 + namesLen slot.roster ≤ rosterArea ∧ buf = slot.image := by
  unfold encode
  simp only
  split
  · rename_i hlong
    constructor
    · intro h
      cases h
    · rintro ⟨hfits, -⟩
      omega
  · rename_i hfits
    have hsmall : rosterArea < u32Bound := by decide
    rw [if_neg]
    · constructor
      · intro h
        cases h
        exact ⟨Nat.not_lt.mp hfits, rfl⟩
      · rintro ⟨-, rfl⟩
        rfl
    · intro hany
      obtain ⟨name, hname, hlen⟩ := List.any_eq_true.mp hany
      have hterm : 4 + (utf8 name).length ≤ namesLen slot.roster :=
        List.single_le_sum (fun _ _ => Nat.zero_le _) _ (List.mem_map_of_mem hname)
      have := of_decide_eq_true hlen
      omega

theorem decode_image {slot : SlotBytes} (hrange : slot.InRange)
    (hfits : 4 + namesLen slot.roster ≤ rosterArea) (hlawful : RosterLawful slot.roster) :
    decode slot.image = some slot :=
  (decode_eq (image_length hfits)).mpr
    ⟨hrange, hlawful, hfits, image_stand hfits, image_checksum hfits⟩

/-- A slot that encodes is read back if its roster is lawful. -/
theorem encode_read {slot : SlotBytes} {buf : List UInt8} (hrange : slot.InRange)
    (hlawful : RosterLawful slot.roster) (h : slot.encode = .ok buf) :
    buf.length = headerSize ∧ decode buf = some slot := by
  obtain ⟨hfits, rfl⟩ := encode_eq_ok.mp h
  exact ⟨image_length hfits, decode_image hrange hfits hlawful⟩

/-- A roster area holds one list of names. -/
theorem nameWrites_unique {buf : List UInt8} {pos : Nat} {front back : List String}
    (hlength : front.length = back.length) (hfront : namesLen front < 256 ^ 4)
    (hback : namesLen back < 256 ^ 4) (hstand : Stand buf (nameWrites pos front))
    (hstand' : Stand buf (nameWrites pos back)) : front = back := by
  induction front generalizing pos back with
  | nil => exact (List.length_eq_zero_iff.mp hlength.symm).symm
  | cons name front ih =>
    cases back with
    | nil => cases hlength
    | cons other back =>
      rw [nameWrites, stand_cons, stand_cons] at hstand hstand'
      rw [namesLen_cons] at hfront hback
      obtain ⟨hlen, hbytes, hstand⟩ := hstand
      obtain ⟨hlen', hbytes', hstand'⟩ := hstand'
      have heq : (utf8 name).length = (utf8 other).length :=
        (getUint_of_window (by omega) hlen).symm.trans (getUint_of_window (by omega) hlen')
      rw [heq] at hbytes hstand
      have hname : some name = some other := by
        rw [← fromUtf8_utf8, ← fromUtf8_utf8]
        exact congrArg fromUtf8 (hbytes.symm.trans hbytes')
      rw [Option.some.inj hname,
        ih (Nat.succ.inj hlength) (by omega) (by omega) hstand hstand']

/-- **The round trip of the slots.** A slot that encodes is read back if its roster is lawful, and
is no slot at all if it is not. What is read back of any buffer has a lawful roster, fields of
their types, and encodes to a slot that reads the same. -/
theorem slot_round_trip :
    (∀ slot : SlotBytes, slot.InRange → ∀ buf, slot.encode = .ok buf →
      buf.length = headerSize ∧ (RosterLawful slot.roster → decode buf = some slot) ∧
        (¬RosterLawful slot.roster → decode buf = none)) ∧
    ∀ buf : List UInt8, buf.length = headerSize → ∀ slot, decode buf = some slot →
      slot.InRange ∧ RosterLawful slot.roster ∧
        ∃ image, slot.encode = .ok image ∧ decode image = some slot := by
  constructor
  · intro slot hrange buf hencode
    obtain ⟨hfits, rfl⟩ := encode_eq_ok.mp hencode
    refine ⟨image_length hfits, decode_image hrange hfits, fun hunlawful => ?_⟩
    by_contra hdecode
    obtain ⟨other, hother⟩ := Option.ne_none_iff_exists'.mp hdecode
    obtain ⟨-, hlawful, hfits', hstand, -⟩ := (decode_eq (image_length hfits)).mp hother
    have hsmall : rosterArea < 256 ^ 4 := by decide
    have hown := image_stand hfits
    unfold writes at hstand hown
    simp only [stand_append, stand_cons] at hstand hown
    obtain ⟨-, -, ⟨hcount, hnames⟩, -⟩ := hstand
    obtain ⟨-, -, ⟨hcount', hnames'⟩, -⟩ := hown
    have hlength := length_le_namesLen slot.roster
    have hlength' := length_le_namesLen other.roster
    have heq : other.roster.length = slot.roster.length :=
      (getUint_of_window (by omega) hcount).symm.trans (getUint_of_window (by omega) hcount')
    rw [nameWrites_unique heq (by omega) (by omega) hnames hnames'] at hlawful
    exact hunlawful hlawful
  · intro buf hlength slot hdecode
    obtain ⟨hrange, hlawful, hfits, -⟩ := (decode_eq hlength).mp hdecode
    exact ⟨hrange, hlawful, slot.image, encode_eq_ok.mpr ⟨hfits, rfl⟩,
      decode_image hrange hfits hlawful⟩

/-- **One changed byte is noticed**, wherever in the slot it lies. -/
theorem decode_set {buf : List UInt8} (hlength : buf.length = headerSize) {slot : SlotBytes}
    (hdecode : decode buf = some slot) {i : Nat} (hi : i < buf.length) {byte : UInt8}
    (hbyte : buf[i] ≠ byte) : decode (buf.set i byte) = none := by
  by_contra hne
  obtain ⟨other, hother⟩ := Option.ne_none_iff_exists'.mp hne
  have hlength' : (buf.set i byte).length = headerSize := by rw [List.length_set, hlength]
  obtain ⟨-, -, -, -, hchecksum⟩ := (decode_eq hlength).mp hdecode
  obtain ⟨-, -, -, -, hchecksum'⟩ := (decode_eq hlength').mp hother
  have hsize : atChecksum + 8 = headerSize := rfl
  by_cases hbody : i < atChecksum
  · -- the stored checksum stays, the fields under it do not
    have hstored : window (buf.set i byte) atChecksum 8 = window buf atChecksum 8 := by
      unfold window
      rw [List.drop_set_of_lt hbody]
    have htake : i < (buf.take atChecksum).length := by
      rw [List.length_take]
      omega
    rw [getUint, hstored, ← getUint, hchecksum, List.take_set] at hchecksum'
    refine fnv1a_set_ne htake ?_ (UInt64.toNat_inj.mp hchecksum').symm
    rwa [List.getElem_take]
  · -- the fields stay, the stored checksum does not
    have hfields : (buf.set i byte).take atChecksum = buf.take atChecksum := by
      rw [List.take_set, List.set_eq_of_length_le]
      rw [List.length_take]
      omega
    rw [hfields, ← hchecksum] at hchecksum'
    have hroom : atChecksum + 8 ≤ buf.length := by omega
    have hwindow : window (buf.set i byte) atChecksum 8 = window buf atChecksum 8 := by
      rw [← beBytes_beValue (window_length hroom), ← getUint, ← hchecksum', getUint,
        beBytes_beValue (window_length (by rwa [List.length_set]))]
    have hget := congrArg (fun bytes => bytes[i - atChecksum]?) hwindow
    simp only [window] at hget
    rw [List.getElem?_take_of_lt (by omega), List.getElem?_take_of_lt (by omega),
      List.getElem?_drop, List.getElem?_drop,
      show atChecksum + (i - atChecksum) = i by omega, List.getElem?_set_self hi,
      List.getElem?_eq_getElem hi] at hget
    exact hbyte (Option.some.inj hget).symm

/-- The slot of a first life. -/
def genesisSlot : SlotBytes where
  seq := 1
  copies := SuperblockCopies.uniform 256 .joining
  roster := ["n0"]
  progress := ⟨⟨1, 0⟩, ⟨1, 0⟩, .normal, 1, 1, 1, 0, 2, none⟩
  base := 1
  count := 1
  bytes := 18

theorem genesisSlot_inRange : genesisSlot.InRange :=
  ⟨by decide, fun _ => show 256 < u32Bound by decide, ⟨by decide, by decide⟩,
    ⟨by decide, by decide⟩, by decide, by decide, by decide, by decide, by decide, by decide,
    by decide, by decide⟩

theorem genesisSlot_lawful : RosterLawful genesisSlot.roster := ⟨by decide +kernel, by decide⟩

theorem genesisSlot_fits : 4 + namesLen genesisSlot.roster ≤ rosterArea := by decide +kernel

theorem slot_round_trip_genesis : decode genesisSlot.image = some genesisSlot :=
  (slot_round_trip.1 _ genesisSlot_inRange _ (encode_eq_ok.mpr ⟨genesisSlot_fits, rfl⟩)).2.1
    genesisSlot_lawful

/-- A byte of the committed slot, one behind the names and one of the checksum, each raised by one. -/
theorem decode_set_genesis :
    decode (genesisSlot.image.set atCommitted (genesisSlot.image.getD atCommitted 0 + 1)) = none ∧
      decode (genesisSlot.image.set (atRoster + 100)
        (genesisSlot.image.getD (atRoster + 100) 0 + 1)) = none ∧
      decode (genesisSlot.image.set (atChecksum + 7)
        (genesisSlot.image.getD (atChecksum + 7) 0 + 1)) = none := by
  have hlength := image_length genesisSlot_fits
  have hdecode := decode_image genesisSlot_inRange genesisSlot_fits genesisSlot_lawful
  have hraised : ∀ i < headerSize,
      decode (genesisSlot.image.set i (genesisSlot.image.getD i 0 + 1)) = none := by
    intro i hi
    rw [← hlength] at hi
    rw [List.getD_eq_getElem _ _ hi]
    refine decode_set hlength hdecode hi fun heq => ?_
    have hnat := congrArg UInt8.toNat heq
    rw [UInt8.toNat_add, UInt8.toNat_one] at hnat
    omega
  exact ⟨hraised _ (by decide), hraised _ (by decide), hraised _ (by decide)⟩

end SlotBytes

end Maelstrom

end UvrrCore
