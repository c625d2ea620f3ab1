import UvrrCore.Wire

/-!
# Truncated messages

What the decoder makes of a message that has not arrived as a whole. A read past the end asks for
the input length it needs, counted from the start of the buffer whatever cursor ran dry, and
nothing is judged before the bytes it depends on are there. So every decoder of the wire format is
`Framed`, nested operations by induction on how many bytes are left for them.

## Main results

* `SystemOperation.unpack_framed`, `Body.unpack_framed`, `WireMessage.unpack_framed`: one lemma
  per type of the wire format.
* `Delivery.read_eq_ok`: a reader that waits for what it was asked for reads the value.
* `truncated_incomplete`: the two of a message.
-/

namespace UvrrCore

open ByteCodec

/-- A decoder and its encoder, on inputs cut short as well. -/
abbrev FramedUnpack {α : Type} (unpack : Unpack α) (pack : α → List UInt8) (valid : α → Prop) :
    Prop :=
  Framed UnpackError.incomplete unpack pack valid

/-! ### Fields -/

namespace UnpackCursor

/-- No length on the wire takes the end of a read out of a `u64`. -/
theorem take_framed {len : Nat} (hlen : len < u32Bound) :
    FramedUnpack (take len) (fun bytes => bytes) fun bytes => bytes.length = len := by
  refine framed_of_decodes (take_decodes len) ?_
  intro c bytes hbytes hlacks
  have hshort := hlacks.remaining_lt
  rw [hbytes] at hshort
  have hsized := c.buf.sized
  have hwithin := c.within
  have hbounds : sliceBound + u32Bound ≤ u64Bound := by decide
  unfold Cursor.remaining at hshort
  refine ⟨c.pos + len, ?_, by omega, by rw [hbytes]⟩
  rw [take, if_neg (by omega), dif_neg (by omega)]

theorem uint_framed {width : Nat} (hwidth : width < u32Bound) :
    FramedUnpack (uint width) (beBytes width) fun value => value < 256 ^ width := by
  refine framed_of_decodes (uint_decodes width) ?_
  intro c value _ hlacks
  exact ((take_framed hwidth).dry (beBytes_length width value) hlacks).bind _

theorem u8_framed : FramedUnpack u8 PackWriter.u8 (· < 256) := uint_framed (by decide)

theorem u32_framed : FramedUnpack u32 PackWriter.u32 (· < u32Bound) := uint_framed (by decide)

theorem u64_framed : FramedUnpack u64 PackWriter.u64 (· < u64Bound) := uint_framed (by decide)

theorem bool_framed : FramedUnpack bool PackWriter.bool fun _ => True := by
  refine framed_of_decodes bool_decodes ?_
  intro c value _ hlacks
  have hvalue : value.toNat < 256 := Nat.lt_of_lt_of_le value.toNat_lt (by decide)
  exact (u8_framed.dry hvalue hlacks).bind _

/-- The length comes before the bytes it counts. -/
theorem bytes_framed :
    FramedUnpack bytes PackWriter.bytes fun value => value.length < u32Bound := by
  refine framed_of_decodes bytes_decodes ?_
  intro c value hvalue hlacks
  refine u32_framed.bind hvalue hlacks ?_
  intro c hlacks
  exact (take_framed hvalue).dry rfl hlacks

end UnpackCursor

/-! ### System operations -/

namespace SystemOperation

theorem unpackFields_dry {bound : Nat} {nested : Unpack SystemOperation}
    (h : FramedWithin UnpackError.incomplete bound nested pack Encodable) {c : Cursor}
    (hbound : c.remaining ≤ bound) {op : SystemOperation} (hvalid : op.Encodable)
    (hlacks : c.Lacks op.packFields) :
    RunsDry UnpackError.incomplete (unpackFields nested op.discriminant c) c op.packFields := by
  cases op with
  | void | double | halve => exact absurd hlacks c.not_lacks_nil
  | init order =>
    refine UnpackCursor.u32_framed.bind hvalid.1 hlacks ?_
    intro c hlacks
    exact ((UnpackCursor.u32_framed.many _).dry ⟨rfl, hvalid.2⟩ hlacks).bind _
  | increment node | decrement node | leave node =>
    exact (UnpackCursor.u32_framed.dry hvalid hlacks).bind _
  | join first second | nominate first second =>
    refine UnpackCursor.u32_framed.bind hvalid.1 hlacks ?_
    intro c hlacks
    exact (UnpackCursor.u32_framed.dry hvalid.2 hlacks).bind _
  | batch ops =>
    refine (UnpackCursor.u32_framed bound).bind hbound hvalid.1 hlacks ?_
    intro c' hspan hlacks
    have hbound' : c'.remaining ≤ bound := by
      have := hspan.remaining
      omega
    have hops : ∀ op ∈ ops, op.Encodable := allEncodable_iff.mp hvalid.2
    exact ((h.many _).dry c' hbound' ops ⟨rfl, hops⟩ hlacks).bind _

/-- The levels never run out before the bytes do, by induction on the bytes. -/
theorem unpackNested_framed (bound : Nat) :
    FramedWithin UnpackError.incomplete bound (unpackNested (bound + 1)) pack Encodable := by
  induction bound with
  | zero =>
    refine ⟨unpackNested_decodes 0, ?_⟩
    intro c hbound op hvalid hlacks
    rw [pack_eq] at hlacks ⊢
    refine (UnpackCursor.u8_framed 0).bind hbound op.discriminant_lt hlacks ?_
    intro c' hspan _
    have hremaining := hspan.remaining
    rw [PackWriter.u8, beBytes_length] at hremaining
    omega
  | succ bound ih =>
    refine ⟨unpackNested_decodes (bound + 1), ?_⟩
    intro c hbound op hvalid hlacks
    rw [pack_eq] at hlacks ⊢
    refine (UnpackCursor.u8_framed (bound + 1)).bind hbound op.discriminant_lt hlacks ?_
    intro c' hspan hlacks'
    have hremaining := hspan.remaining
    rw [PackWriter.u8, beBytes_length] at hremaining
    exact unpackFields_dry ih (by omega) hvalid hlacks'

theorem unpack_framed : FramedUnpack unpack pack Encodable := by
  refine framed_of_decodes unpack_decodes ?_
  intro c op hvalid hlacks
  exact (unpackNested_framed c.remaining).dry c (Nat.le_refl _) op hvalid hlacks

end SystemOperation

/-! ### Entries, ballots and proofs -/

theorem OperationId.unpack_framed : FramedUnpack unpack pack Encodable := by
  refine framed_of_decodes unpack_decodes ?_
  intro c id hvalid hlacks
  refine UnpackCursor.u64_framed.bind hvalid.1 hlacks ?_
  intro c hlacks
  exact (UnpackCursor.u64_framed.dry hvalid.2 hlacks).bind _

theorem Ballot.unpack_framed : FramedUnpack unpack pack Encodable := by
  refine framed_of_decodes unpack_decodes ?_
  intro c b hvalid hlacks
  refine UnpackCursor.u32_framed.bind hvalid.1 hlacks ?_
  intro c hlacks
  exact (UnpackCursor.u32_framed.dry hvalid.2 hlacks).bind _

theorem Payload.unpack_framed : FramedUnpack unpack pack Encodable := by
  refine framed_of_decodes unpack_decodes ?_
  intro c payload hvalid hlacks
  cases payload with
  | operation id payload =>
    refine UnpackCursor.u8_framed.bind (by decide) hlacks ?_
    intro c hlacks
    refine OperationId.unpack_framed.bind hvalid.1 hlacks ?_
    intro c hlacks
    exact (UnpackCursor.bytes_framed.dry hvalid.2 hlacks).bind _
  | system op =>
    refine UnpackCursor.u8_framed.bind (by decide) hlacks ?_
    intro c hlacks
    exact (SystemOperation.unpack_framed.dry hvalid hlacks).bind _

theorem LogEntry.unpack_framed : FramedUnpack unpack pack Encodable := by
  refine framed_of_decodes unpack_decodes ?_
  intro c entry hvalid hlacks
  obtain ⟨hslot, hera, hpayload⟩ := hvalid
  refine UnpackCursor.u64_framed.bind hslot hlacks ?_
  intro c hlacks
  refine UnpackCursor.u32_framed.bind hera hlacks ?_
  intro c hlacks
  exact (Payload.unpack_framed.dry hpayload hlacks).bind _

theorem EvidenceKind.unpack_framed : FramedUnpack unpack pack fun _ => True := by
  refine framed_of_decodes unpack_decodes ?_
  intro c kind _ hlacks
  cases kind with
  | ordinary | planned => exact (UnpackCursor.u8_framed.dry (by decide) hlacks).bind _

theorem EraProof.unpack_framed : FramedUnpack unpack pack Encodable := by
  refine framed_of_decodes unpack_decodes ?_
  intro c proof hvalid hlacks
  refine SystemOperation.unpack_framed.bind hvalid.1 hlacks ?_
  intro c hlacks
  exact (UnpackCursor.u64_framed.dry hvalid.2 hlacks).bind _

/-! ### Sequences -/

theorem unpackEntries_framed : FramedUnpack unpackEntries packEntries EntriesEncodable := by
  refine framed_of_decodes unpackEntries_decodes ?_
  intro c entries hvalid hlacks
  refine UnpackCursor.u32_framed.bind hvalid.1 hlacks ?_
  intro c hlacks
  exact (LogEntry.unpack_framed.many _).dry ⟨rfl, hvalid.2⟩ hlacks

/-- The count is judged once it is there, and a valid one is not 0. -/
theorem unpackCounted_framed {α : Type} {unpack : Unpack α} {pack : α → List UInt8}
    {valid : α → Prop} (hdecodes : Decodes unpack pack valid)
    (h : FramedUnpack unpack pack valid) :
    FramedUnpack (unpackCounted unpack) (packCounted pack) (CountedEncodable valid) := by
  refine framed_of_decodes (unpackCounted_decodes hdecodes) ?_
  intro c items hvalid hlacks
  obtain ⟨hne, hcount, hall⟩ := hvalid
  refine UnpackCursor.u32_framed.bind hcount hlacks ?_
  intro c hlacks
  show RunsDry _ (do
    if items.length = 0 then .error (.malformed .outOfDomain)
    many unpack items.length c) c _
  rw [if_neg (mt List.length_eq_zero_iff.mp hne)]
  exact (h.many _).dry ⟨rfl, hall⟩ hlacks

/-! ### Headers and bodies -/

theorem Tag.unpack_framed : FramedUnpack unpack pack fun _ => True := by
  refine framed_of_decodes unpack_decodes ?_
  intro c tag _ hlacks
  have htag : tag.asU32 < u32Bound := Nat.lt_trans tag.asU32_lt (by decide)
  exact (UnpackCursor.u32_framed.dry htag hlacks).bind _

theorem WireHeader.unpack_framed : FramedUnpack unpack pack Encodable := by
  refine framed_of_decodes unpack_decodes ?_
  intro c header hvalid hlacks
  refine Tag.unpack_framed.bind trivial hlacks ?_
  intro c hlacks
  refine Ballot.unpack_framed.bind hvalid.1 hlacks ?_
  intro c hlacks
  exact (UnpackCursor.u64_framed.dry hvalid.2 hlacks).bind _

namespace Body

theorem unpackFields_dry {c : Cursor} {body : Body} (hvalid : body.Encodable)
    (hlacks : c.Lacks body.packFields) :
    RunsDry UnpackError.incomplete (unpackFields body.tag c) c body.packFields := by
  cases body with
  | prepareOk | startViewChange | plannedViewChange => exact absurd hlacks c.not_lacks_nil
  | prepare entry committed =>
    refine LogEntry.unpack_framed.bind hvalid.1 hlacks ?_
    intro c hlacks
    exact (UnpackCursor.u64_framed.dry hvalid.2 hlacks).bind _
  | commit slot | getState slot => exact (UnpackCursor.u64_framed.dry hvalid hlacks).bind _
  | doViewChange retained accepted committed suffix evidence eraProof =>
    obtain ⟨hretained, haccepted, hcommitted, hsuffix, hproof⟩ := hvalid
    refine Ballot.unpack_framed.bind hretained hlacks ?_
    intro c hlacks
    refine UnpackCursor.u64_framed.bind haccepted hlacks ?_
    intro c hlacks
    refine UnpackCursor.u64_framed.bind hcommitted hlacks ?_
    intro c hlacks
    refine unpackEntries_framed.bind hsuffix hlacks ?_
    intro c hlacks
    refine EvidenceKind.unpack_framed.bind trivial hlacks ?_
    intro c hlacks
    exact (EraProof.unpack_framed.dry hproof hlacks).bind _
  | startView suffix accepted committed eraProof =>
    obtain ⟨hsuffix, haccepted, hcommitted, hproof⟩ := hvalid
    refine unpackEntries_framed.bind hsuffix hlacks ?_
    intro c hlacks
    refine UnpackCursor.u64_framed.bind haccepted hlacks ?_
    intro c hlacks
    refine UnpackCursor.u64_framed.bind hcommitted hlacks ?_
    intro c hlacks
    exact (EraProof.unpack_framed.dry hproof hlacks).bind _
  | newState entries through committed more =>
    obtain ⟨hentries, hthrough, hcommitted⟩ := hvalid
    refine unpackEntries_framed.bind hentries hlacks ?_
    intro c hlacks
    refine UnpackCursor.u64_framed.bind hthrough hlacks ?_
    intro c hlacks
    refine UnpackCursor.u64_framed.bind hcommitted hlacks ?_
    intro c hlacks
    exact (UnpackCursor.bool_framed.dry trivial hlacks).bind _
  | reincarnation old new committed prepared =>
    obtain ⟨hold, hnew, hcommitted, hprepared⟩ := hvalid
    refine UnpackCursor.u32_framed.bind hold hlacks ?_
    intro c hlacks
    refine UnpackCursor.u32_framed.bind hnew hlacks ?_
    intro c hlacks
    refine UnpackCursor.u64_framed.bind hcommitted hlacks ?_
    intro c hlacks
    exact (UnpackCursor.u64_framed.dry hprepared hlacks).bind _
  | fuse ops =>
    have hframed := unpackCounted_framed SystemOperation.unpack_decodes
      SystemOperation.unpack_framed
    exact (hframed.dry hvalid hlacks).bind _
  | fuseOk slots | commitBatch slots =>
    have hframed := unpackCounted_framed UnpackCursor.u64_decodes UnpackCursor.u64_framed
    exact (hframed.dry hvalid hlacks).bind _
  | gossipRequest prepared committed =>
    refine UnpackCursor.u64_framed.bind hvalid.1 hlacks ?_
    intro c hlacks
    exact (UnpackCursor.u64_framed.dry hvalid.2 hlacks).bind _

theorem unpack_framed : FramedUnpack unpack pack Encodable := by
  refine framed_of_decodes unpack_decodes ?_
  intro c body hvalid hlacks
  refine UnpackCursor.u8_framed.bind body.tag.asU32_lt hlacks ?_
  intro c hlacks
  have htag : Tag.fromU32 body.tag.asU32 = some body.tag := Tag.fromU32_eq_some.mpr rfl
  simp only [htag]
  exact unpackFields_dry hvalid hlacks

end Body

theorem WireMessage.unpack_framed : FramedUnpack unpack pack Encodable := by
  refine framed_of_decodes unpack_decodes ?_
  intro c message hvalid hlacks
  refine WireHeader.unpack_framed.bind hvalid.1 hlacks ?_
  intro c hlacks
  exact (Body.unpack_framed.dry hvalid.2.1 hlacks).bind _

/-! ### Readers -/

section

variable {α : Type} {unpack : Unpack α} {pack : α → List UInt8} {valid : α → Prop}

/-- Of a value cut short, the decoder asks for more, and for no more than there will be. -/
theorem unpackFrom_dry (h : FramedUnpack unpack pack valid) {a : α} (ha : valid a) {buf : Slice}
    (hpart : buf.bytes <+: pack a) (hstrict : buf.bytes ≠ pack a) :
    ∃ needed, unpackFrom unpack buf = .error (.incomplete needed) ∧ buf.bytes.length < needed ∧
      needed ≤ (pack a).length := by
  obtain ⟨missing, hmissing⟩ := hpart
  have hne : missing ≠ [] := by
    intro hnil
    rw [hnil, List.append_nil] at hmissing
    exact hstrict hmissing
  have hlacks : (Cursor.start buf).Lacks (pack a) := ⟨missing, hne, hmissing.symm⟩
  obtain ⟨needed, herror, hlt, hle⟩ := (h.dry ha hlacks).bind fun read => do
    UnpackCursor.finish read.2
    return read.1
  refine ⟨needed, herror, hlt, ?_⟩
  rwa [show (Cursor.start buf).pos = 0 from rfl, Nat.zero_add] at hle

/-- **Bytes on their way**: what is at hand once so many of them were waited for. -/
structure Delivery (sent : List UInt8) where
  upTo : Nat → Slice
  prefixes : ∀ n, (upTo n).bytes <+: sent
  waited : ∀ n, n ≤ sent.length → n ≤ (upTo n).bytes.length

/-- A reader that waits for the bytes it is asked for and tries again. -/
def Delivery.read {sent : List UInt8} (delivery : Delivery sent) (unpack : Unpack α) :
    (retries : Nat) → Slice → Except UnpackError α
  | 0, got => unpackFrom unpack got
  | retries + 1, got =>
    match unpackFrom unpack got with
    | .error (.incomplete needed) => delivery.read unpack retries (delivery.upTo needed)
    | result => result

/-- Each retry starts with more bytes, and with all of them it is the last. -/
theorem Delivery.read_eq_ok (hdecodes : Decodes unpack pack valid)
    (h : FramedUnpack unpack pack valid) {a : α} (ha : valid a) (delivery : Delivery (pack a))
    {retries : Nat} {got : Slice} (hgot : got.bytes <+: pack a)
    (hretries : (pack a).length ≤ got.bytes.length + retries) :
    delivery.read unpack retries got = .ok a := by
  have hwhole : ∀ {buf : Slice}, buf.bytes = pack a → unpackFrom unpack buf = .ok a :=
    fun hbytes => (unpackFrom_eq_ok hdecodes).mpr ⟨ha, hbytes⟩
  induction retries generalizing got with
  | zero => exact hwhole (hgot.eq_of_length_le hretries)
  | succ retries ih =>
    by_cases hbytes : got.bytes = pack a
    · rw [Delivery.read, hwhole hbytes]
    · obtain ⟨needed, herror, hlt, hle⟩ := unpackFrom_dry h ha hgot hbytes
      have hwaited := delivery.waited needed hle
      rw [Delivery.read, herror]
      exact ih (delivery.prefixes needed) (by omega)

end

/-- **A message cut short is incomplete.** Of every strict prefix of its packing the decoder asks
for an input longer than the prefix and no longer than the packing. So a reader that waits for
what it is asked for and tries again ends with the message, however the bytes arrive, after no
more retries than there are bytes. -/
theorem truncated_incomplete (message : WireMessage) (hvalid : message.Encodable) :
    (∀ buf : Slice, buf.bytes <+: message.pack → buf.bytes ≠ message.pack →
      ∃ needed, unpackFrom WireMessage.unpack buf = .error (.incomplete needed) ∧
        buf.bytes.length < needed ∧ needed ≤ message.pack.length) ∧
    ∀ (delivery : Delivery message.pack) (retries : Nat), message.pack.length ≤ retries →
      delivery.read WireMessage.unpack retries (delivery.upTo 0) = .ok message := by
  refine ⟨?_, ?_⟩
  · intro buf hpart hstrict
    exact unpackFrom_dry WireMessage.unpack_framed hvalid hpart hstrict
  · intro delivery retries hretries
    exact delivery.read_eq_ok WireMessage.unpack_decodes WireMessage.unpack_framed hvalid
      (delivery.prefixes 0) (by omega)

/-- A batch in a batch, cut off inside the inner count. -/
theorem truncated_incomplete_nested :
    let message : WireMessage :=
      ⟨⟨.fuse, ⟨1, 2⟩, 3⟩, .fuse [.batch [.increment 4, .batch [.double, .init [5, 6]]]]⟩
    let buf : Slice := ⟨message.pack.take 38, by decide⟩
    ∃ needed, unpackFrom WireMessage.unpack buf = .error (.incomplete needed) ∧ 38 < needed ∧
      needed ≤ 54 := by
  intro message buf
  have hvalid : message.Encodable := by
    refine ⟨⟨⟨by decide, by decide⟩, by decide⟩, ⟨by decide, by decide, ?_⟩, rfl⟩
    intro op hop
    rw [List.mem_singleton.mp hop]
    simp only [SystemOperation.Encodable, SystemOperation.AllEncodable]
    decide
  exact (truncated_incomplete message hvalid).1 buf (List.take_prefix 38 _) (by decide)

end UvrrCore
