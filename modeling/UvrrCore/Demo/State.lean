import UvrrCore.ByteCodec
import UvrrCore.CyclicCode
import UvrrCore.Locks

/-!
# The lock-state file

The lock table's snapshot on disk: a version byte, the length of the payload, the payload, and a
checksum over everything before it.

`unframe_eq_some_iff` says what a reader takes: the framing of a payload that decodes, byte for
byte. Two framings differ in more than one byte and neither continues the other, so a file with one
byte changed, a torn one and one with something behind it are refused (`unframe_refuses_damage`).
-/

namespace UvrrCore

namespace Demo

open ByteCodec CyclicCode
open Locks (StateSnapshot)

/-- Byte two carries the generation watermarks beside the records. -/
def formatVersion : UInt8 := 2

/-- The reflected polynomial. -/
def crcPolynomial : BitVec 32 := 0xEDB88320#32

/-- CRC-32 IEEE, bitwise. -/
def crc32Ieee (bytes : List UInt8) : BitVec 32 :=
  ~~~(feed crcPolynomial 8 0xFFFFFFFF#32 (bytes.map fun byte => byte.toBitVec.setWidth 32))

/-- The JSON library on snapshots. -/
structure SnapshotJson where
  toVec : StateSnapshot → Option (List UInt8)
  fromSlice : List UInt8 → Option StateSnapshot

inductive FrameError where
  | json
  /-- "state snapshot is too large to frame" -/
  | tooLarge
deriving DecidableEq, Repr

namespace SnapshotJson

/-- The library reads back what it writes. -/
def Reads (json : SnapshotJson) : Prop :=
  ∀ snap payload, json.toVec snap = some payload → json.fromSlice payload = some snap

/-- The framed bytes of a snapshot. -/
def frame (json : SnapshotJson) (snap : StateSnapshot) : Except FrameError (List UInt8) :=
  match json.toVec snap with
  | none => .error .json
  | some payload =>
    if payload.length < u32Bound then
      let framed := formatVersion :: (beBytes 4 payload.length ++ payload)
      .ok (framed ++ beBytes 4 (crc32Ieee framed).toNat)
    else .error .tooLarge

/-- The snapshot a framed file carries, `none` when the frame is not to be trusted. -/
def unframe (json : SnapshotJson) (bytes : List UInt8) : Option StateSnapshot :=
  let header := 1 + 4
  let checksum := 4
  if bytes.length < header + checksum ∨ bytes.head? ≠ some formatVersion then none
  else
    let length := beValue ((bytes.take header).drop 1)
    let bodyEnd := header + length
    -- the checked sum of two `usize`
    if u64Bound ≤ bodyEnd then none
    else if bytes.length ≠ bodyEnd + checksum then none
    else if (crc32Ieee (bytes.take bodyEnd)).toNat ≠ beValue (bytes.drop bodyEnd) then none
    else json.fromSlice ((bytes.take bodyEnd).drop header)

end SnapshotJson

/-! ### Framings -/

/-- Everything the checksum is taken over. -/
def framedBody (payload : List UInt8) : List UInt8 :=
  formatVersion :: (beBytes 4 payload.length ++ payload)

/-- The framing of a payload. -/
def framing (payload : List UInt8) : List UInt8 :=
  framedBody payload ++ beBytes 4 (crc32Ieee (framedBody payload)).toNat

@[simp] theorem framedBody_length (payload : List UInt8) :
    (framedBody payload).length = payload.length + 5 := by
  simp only [framedBody, List.length_cons, List.length_append, beBytes_length]
  omega

@[simp] theorem framing_length (payload : List UInt8) :
    (framing payload).length = payload.length + 9 := by
  simp only [framing, List.length_append, framedBody_length, beBytes_length]

theorem SnapshotJson.frame_eq_ok_iff {json : SnapshotJson} {snap : StateSnapshot}
    {framed : List UInt8} :
    json.frame snap = .ok framed ↔ ∃ payload, json.toVec snap = some payload ∧
      payload.length < u32Bound ∧ framed = framing payload := by
  unfold frame
  cases json.toVec snap with
  | none => simp
  | some payload =>
    by_cases hfits : payload.length < u32Bound
    · simp [hfits, framing, framedBody, eq_comm]
    · simp [hfits]

/-- The length a framing carries, as the reader finds it. -/
theorem framing_header (payload : List UInt8) :
    ((framing payload).take (1 + 4)).drop 1 = beBytes 4 payload.length := by
  unfold framing framedBody
  rw [List.cons_append, Nat.add_comm 1 4, List.take_succ_cons, List.drop_succ_cons,
    List.drop_zero, List.append_assoc, List.take_left' (beBytes_length 4 _)]

theorem framing_take (payload : List UInt8) :
    (framing payload).take (payload.length + 5) = framedBody payload :=
  List.take_left' (framedBody_length payload)

theorem framing_drop (payload : List UInt8) :
    (framing payload).drop (payload.length + 5) =
      beBytes 4 (crc32Ieee (framedBody payload)).toNat :=
  List.drop_left' (framedBody_length payload)

theorem framedBody_drop (payload : List UInt8) : (framedBody payload).drop (1 + 4) = payload := by
  unfold framedBody
  rw [Nat.add_comm 1 4, List.drop_succ_cons, List.drop_left' (beBytes_length 4 _)]

/-- Bytes that begin with a version byte, a length and so many bytes are the framed part of what
follows the length. -/
theorem framedBody_of_take {bytes : List UInt8} {length : Nat}
    (hversion : bytes.head? = some formatVersion)
    (hlength : beValue ((bytes.take (1 + 4)).drop 1) = length)
    (hsize : bytes.length = 1 + 4 + length + 4) :
    bytes.take (1 + 4 + length) = framedBody ((bytes.take (1 + 4 + length)).drop (1 + 4)) := by
  cases bytes with
  | nil => cases hversion
  | cons version rest =>
    cases hversion
    have hcount : (rest.take 4).length = 4 := by
      rw [List.length_take]
      simp only [List.length_cons] at hsize
      omega
    have hprefix : beBytes 4 length = rest.take 4 := by
      rw [← hlength, Nat.add_comm 1 4, List.take_succ_cons, List.drop_succ_cons, List.drop_zero]
      exact beBytes_beValue hcount
    have hpayload : ((formatVersion :: rest).take (1 + 4 + length)).drop (1 + 4) =
        (rest.drop 4).take length := by
      rw [← List.take_drop, Nat.add_comm 1 4, List.drop_succ_cons]
    have hpayloadLength : ((rest.drop 4).take length).length = length := by
      rw [List.length_take, List.length_drop]
      simp only [List.length_cons] at hsize
      omega
    rw [hpayload, framedBody, hpayloadLength, hprefix, ← List.take_add,
      show 1 + 4 + length = 4 + length + 1 by omega, List.take_succ_cons]

/-- **What a reader takes**: the framing of a payload that decodes, and nothing else. -/
theorem SnapshotJson.unframe_eq_some_iff {json : SnapshotJson} {bytes : List UInt8}
    {snap : StateSnapshot} :
    json.unframe bytes = some snap ↔ ∃ payload, payload.length < u32Bound ∧
      bytes = framing payload ∧ json.fromSlice payload = some snap := by
  unfold unframe
  simp only
  constructor
  · intro h
    split at h
    · cases h
    · rename_i hshape
      rw [not_or, not_not] at hshape
      split at h
      · cases h
      · split at h
        · cases h
        · rename_i hsize
          rw [not_not] at hsize
          split at h
          · cases h
          · rename_i hsum
            rw [not_not] at hsum
            have hbody := framedBody_of_take hshape.2 rfl hsize
            generalize hlength : beValue ((bytes.take (1 + 4)).drop 1) = length at *
            have hbound := beValue_lt ((bytes.take (1 + 4)).drop 1)
            rw [hlength] at hbound
            refine ⟨(bytes.take (1 + 4 + length)).drop (1 + 4), ?_, ?_, h⟩
            · rw [List.length_drop, List.length_take] at *
              have hfour : 256 ^ (min (1 + 4) bytes.length - 1) ≤ 256 ^ 4 :=
                Nat.pow_le_pow_right (by decide) (by omega)
              have : (256 : Nat) ^ 4 = u32Bound := by decide
              omega
            · have htail : (bytes.drop (1 + 4 + length)).length = 4 := by
                rw [List.length_drop]
                omega
              rw [framing, ← hbody, hsum, beBytes_beValue htail, List.take_append_drop]
  · rintro ⟨payload, hfits, rfl, hdecodes⟩
    have hlength : beValue (((framing payload).take (1 + 4)).drop 1) = payload.length := by
      rw [framing_header]
      exact beValue_beBytes (by
        have : (256 : Nat) ^ 4 = u32Bound := by decide
        omega)
    have hsum : beValue (beBytes 4 (crc32Ieee (framedBody payload)).toNat) =
        (crc32Ieee (framedBody payload)).toNat :=
      beValue_beBytes (crc32Ieee (framedBody payload)).isLt
    rw [hlength, show 1 + 4 + payload.length = payload.length + 5 by omega, framing_take,
      framing_drop, hsum, framedBody_drop, framing_length]
    have hwide : u32Bound + 9 < u64Bound := by decide
    rw [if_neg (by simp [framing, framedBody]), if_neg (by omega), if_neg (by omega),
      if_neg (by simp), hdecodes]

/-! ### Damage -/

/-- **One byte that differs** gives another checksum, whatever stands around it. -/
theorem crc32Ieee_changed (front back : List UInt8) {u v : UInt8} (hne : u ≠ v) :
    crc32Ieee (front ++ u :: back) ≠ crc32Ieee (front ++ v :: back) := by
  have hwords : u.toBitVec.setWidth 32 ≠ v.toBitVec.setWidth 32 := by
    intro h
    refine hne (UInt8.toBitVec_inj.mp (BitVec.eq_of_toNat_eq ?_))
    have hvalue := congrArg BitVec.toNat h
    have hu := u.toBitVec.isLt
    have hv := v.toBitVec.isLt
    simp only [BitVec.toNat_setWidth] at hvalue
    omega
  intro h
  unfold crc32Ieee at h
  rw [BitVec.not_inj, List.map_append, List.map_append, List.map_cons, List.map_cons] at h
  exact feed_changed (by decide) 8 _ _ _ hwords h

/-- The stored checksum of a framing. -/
theorem crc32Ieee_stored (payload : List UInt8) :
    BitVec.ofNat 32 (beValue (beBytes 4 (crc32Ieee (framedBody payload)).toNat)) =
      crc32Ieee (framedBody payload) := by
  have hstored : beValue (beBytes 4 (crc32Ieee (framedBody payload)).toNat) =
      (crc32Ieee (framedBody payload)).toNat :=
    beValue_beBytes (crc32Ieee (framedBody payload)).isLt
  rw [hstored, BitVec.ofNat_toNat, BitVec.setWidth_eq]

/-- The first bytes of a framing are its version and its length. -/
theorem framing_take_header (payload : List UInt8) :
    (framing payload).take (1 + 4) = formatVersion :: beBytes 4 payload.length := by
  unfold framing framedBody
  rw [List.cons_append, Nat.add_comm 1 4, List.take_succ_cons, List.append_assoc,
    List.take_left' (beBytes_length 4 _)]

/-- A framing that begins another is that one. -/
theorem framing_torn {payload other : List UInt8} (hfits : payload.length < u32Bound)
    (hother : other.length < u32Bound) (h : framing other <+: framing payload) :
    framing other = framing payload := by
  refine h.eq_of_length ?_
  have hheader : (framing other).take (1 + 4) = (framing payload).take (1 + 4) := by
    rw [List.prefix_iff_eq_take.mp h, List.take_take, framing_length,
      Nat.min_eq_left (show 1 + 4 ≤ other.length + 9 by omega)]
  rw [framing_take_header, framing_take_header, List.cons.injEq] at hheader
  have hfour : (256 : Nat) ^ 4 = u32Bound := by decide
  have hlength : other.length = payload.length := by
    rw [← beValue_beBytes (show other.length < 256 ^ 4 by omega), hheader.2,
      beValue_beBytes (show payload.length < 256 ^ 4 by omega)]
  rw [framing_length, framing_length, hlength]

/-- **No framing is another one with one byte changed.** -/
theorem framing_changed {payload other front back : List UInt8} {u v : UInt8} (hne : u ≠ v)
    (h : framing payload = front ++ u :: back) : framing other ≠ front ++ v :: back := by
  intro h'
  have hlength : other.length = payload.length := by
    have hsame := congrArg List.length h
    have hsame' := congrArg List.length h'
    simp only [framing_length, List.length_append, List.length_cons] at hsame hsame'
    omega
  have hat : (framing payload)[front.length]? = some u := by
    rw [h, List.getElem?_append_right (Nat.le_refl _), Nat.sub_self]
    rfl
  have hat' : (framing other)[front.length]? = some v := by
    rw [h', List.getElem?_append_right (Nat.le_refl _), Nat.sub_self]
    rfl
  have hbody := framing_take payload
  have hbody' := framing_take other
  have htail := framing_drop payload
  have htail' := framing_drop other
  rw [hlength, h'] at hbody' htail'
  rw [h] at hbody htail
  by_cases hheader : front.length < 1 + 4
  · -- the version and the length are the same in both
    have hsame : (framing payload).take (1 + 4) = (framing other).take (1 + 4) := by
      rw [framing_take_header, framing_take_header, hlength]
    rw [← List.getElem?_take_of_lt hheader, ← hsame, List.getElem?_take_of_lt hheader, hat] at hat'
    exact hne (Option.some.inj hat')
  · by_cases hin : front.length < payload.length + 5
    · -- the checksum is the same and taken over bodies that differ in one byte
      have hcut : ∀ w : UInt8, (front ++ w :: back).take (payload.length + 5) =
          front ++ w :: back.take (payload.length + 4 - front.length) := by
        intro w
        rw [List.take_append, List.take_of_length_le hin.le,
          show payload.length + 5 - front.length = payload.length + 4 - front.length + 1 by omega,
          List.take_succ_cons]
      have hrest : ∀ w : UInt8, (front ++ w :: back).drop (payload.length + 5) =
          back.drop (payload.length + 4 - front.length) := by
        intro w
        rw [List.drop_append, List.drop_of_length_le hin.le,
          show payload.length + 5 - front.length = payload.length + 4 - front.length + 1 by omega,
          List.drop_succ_cons, List.nil_append]
      rw [hcut] at hbody hbody'
      rw [hrest] at htail htail'
      have hsum : crc32Ieee (framedBody payload) = crc32Ieee (framedBody other) := by
        rw [← crc32Ieee_stored payload, ← htail, htail', crc32Ieee_stored]
      rw [← hbody, ← hbody'] at hsum
      exact crc32Ieee_changed _ _ hne hsum
    · -- the bodies are the same, so the checksums are
      have hcut : ∀ w : UInt8, (front ++ w :: back).take (payload.length + 5) =
          front.take (payload.length + 5) := by
        intro w
        rw [List.take_append, Nat.sub_eq_zero_of_le (Nat.not_lt.mp hin), List.take_zero,
          List.append_nil]
      rw [hcut] at hbody hbody'
      have hsame : framing payload = framing other := by
        unfold framing
        rw [← hbody, ← hbody']
      rw [hsame, hat'] at hat
      exact hne (Option.some.inj hat).symm

/-- **A rotted or torn lock-state file is refused**, and a whole one gives its snapshot back: one
byte changed anywhere, an end torn off, or bytes behind it. -/
theorem unframe_refuses_damage {json : SnapshotJson} (hreads : json.Reads) {snap : StateSnapshot}
    {framed : List UInt8} (h : json.frame snap = .ok framed) :
    json.unframe framed = some snap ∧
      (∀ (i : Nat) (hi : i < framed.length) (byte : UInt8), byte ≠ framed[i] →
        json.unframe (framed.set i byte) = none) ∧
      (∀ torn, torn <+: framed → torn ≠ framed → json.unframe torn = none) ∧
      ∀ extra, extra ≠ [] → json.unframe (framed ++ extra) = none := by
  obtain ⟨payload, hwrites, hfits, rfl⟩ := SnapshotJson.frame_eq_ok_iff.mp h
  have hrefused : ∀ bytes, (∀ other, other.length < u32Bound → bytes ≠ framing other) →
      json.unframe bytes = none := by
    intro bytes hno
    refine Option.eq_none_iff_forall_ne_some.mpr fun found hfound => ?_
    obtain ⟨other, hother, hbytes, -⟩ := SnapshotJson.unframe_eq_some_iff.mp hfound
    exact hno other hother hbytes
  refine ⟨SnapshotJson.unframe_eq_some_iff.mpr ⟨payload, hfits, rfl, hreads _ _ hwrites⟩,
    fun i hi byte hne => hrefused _ fun other _ hset => ?_,
    fun torn htorn hne => hrefused _ fun other hother heq => ?_,
    fun extra hne => hrefused _ fun other hother heq => ?_⟩
  · have hsplit : framing payload =
        (framing payload).take i ++ (framing payload)[i] :: (framing payload).drop (i + 1) := by
      rw [← List.drop_eq_getElem_cons hi, List.take_append_drop]
    rw [List.set_eq_take_append_cons_drop, if_pos hi] at hset
    exact framing_changed hne.symm hsplit hset.symm
  · subst heq
    exact hne (framing_torn hfits hother htorn)
  · have hwhole := framing_torn hother hfits (heq ▸ List.prefix_append _ _)
    rw [← heq] at hwhole
    exact hne (List.self_eq_append_right.mp hwhole)

def firstClient : Locks.NamedClient :=
  ⟨⟨7, 1⟩, fun h => absurd (congrArg Locks.ClientId.msb h) (Nat.succ_ne_zero 6)⟩

/-- A table in which a client has taken a lock. -/
def leasedTable : Locks.Service :=
  (Locks.Service.empty.executeRequest 3 (.set firstClient 4 10)).1

/-- What the library writes for it. -/
def leasedText : List UInt8 :=
  ("\x7b\"locks\":\x7b\"4\":\x7b\"lease_id\":1,\"holder\":\x7b\"msb\":7,\"lsb\":1\x7d," ++
    "\"expiry\":13,\"window\":10\x7d\x7d,\"generations\":\x7b\"4\":1\x7d\x7d").toList.map
      fun letter => UInt8.ofNat letter.toNat

/-- The library on that table. -/
def leasedJson : SnapshotJson where
  toVec snap :=
    if snap.locks.entries = leasedTable.locks.entries ∧
      snap.generations.entries = leasedTable.generations.entries then some leasedText else none
  fromSlice bytes := if bytes = leasedText then some leasedTable.snapshot else none

theorem leasedJson_reads : leasedJson.Reads := by
  rintro ⟨⟨locks, _⟩, ⟨generations, _⟩⟩ payload hwrites
  simp only [leasedJson] at hwrites ⊢
  split at hwrites
  · rename_i hleased
    obtain ⟨rfl, rfl⟩ := hleased
    rw [← Option.some.inj hwrites, if_pos rfl]
    rfl
  · cases hwrites

theorem unframe_refuses_damage_leased : ∃ framed,
    leasedJson.frame leasedTable.snapshot = .ok framed ∧
      leasedJson.unframe framed = some leasedTable.snapshot ∧
      (∀ (i : Nat) (hi : i < framed.length) (byte : UInt8), byte ≠ framed[i] →
        leasedJson.unframe (framed.set i byte) = none) ∧
      (∀ torn, torn <+: framed → torn ≠ framed → leasedJson.unframe torn = none) ∧
      ∀ extra, extra ≠ [] → leasedJson.unframe (framed ++ extra) = none := by
  have hframe : leasedJson.frame leasedTable.snapshot = .ok (framing leasedText) :=
    SnapshotJson.frame_eq_ok_iff.mpr ⟨leasedText, by simp [leasedJson, Locks.Service.snapshot],
      by decide, rfl⟩
  exact ⟨_, hframe, unframe_refuses_damage leasedJson_reads hframe⟩

end Demo

end UvrrCore
