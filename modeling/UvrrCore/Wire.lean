import UvrrCore.ByteCodec
import UvrrCore.Message

/-!
# The wire format

The binary form of peer messages: big-endian fixed-width fields, one byte of discriminant in front
of every variant, and a `u32` count or length in front of every sequence. Encoder, decoder and
length are written apart, each as the source writes it.

* `Encodable` says of a value what its types say in the source (the widths of its fields), and
  that every count fits its prefix. The encoder panics on one that does not; only encodable values
  have a packing here that means anything.
* Each decoder and its encoder are a pair (`Decodes`), so that an accepted byte string is the
  encoding of what was read from it.
* An operation nests operations. Each level of a batch takes bytes, so the bytes left bound the
  depth.
-/

namespace UvrrCore

open ByteCodec

/-! ### Writing -/

namespace PackWriter

def u8 (value : Nat) : List UInt8 := beBytes 1 value

def u32 (value : Nat) : List UInt8 := beBytes 4 value

def u64 (value : Nat) : List UInt8 := beBytes 8 value

def bool (value : Bool) : List UInt8 := u8 value.toNat

/-- A byte string behind its length. -/
def bytes (value : List UInt8) : List UInt8 := u32 value.length ++ value

end PackWriter

inductive PackError where
  | bufferTooSmall (needed provided : Nat)
deriving DecidableEq, Repr

/-- Bytes written at the start of a buffer that has room for so many as were asked for. Writing
more than the buffer holds is a panic, `none`. -/
def packInto (packed : List UInt8) (needed : Nat) (buf : List UInt8) :
    Option (Except PackError (Nat × List UInt8)) :=
  if buf.length < needed then some (.error (.bufferTooSmall needed buf.length))
  else if buf.length < packed.length then none
  else some (.ok (packed.length, packed ++ buf.drop packed.length))

/-! ### Reading -/

inductive Malformed where
  | unknownTag (raw : Nat)
  | lengthPrefixOverflow
  | trailingBytes (unread : Nat)
  | outOfDomain
deriving DecidableEq, Repr

inductive UnpackError where
  | incomplete (needed : Nat)
  | malformed (kind : Malformed)
deriving DecidableEq, Repr

abbrev Unpack (α : Type) := Get UnpackError α

namespace UnpackCursor

/-- The next so many bytes. -/
def take (len : Nat) : Unpack (List UInt8) := fun c =>
  if u64Bound ≤ c.pos + len then .error (.malformed .lengthPrefixOverflow)
  else if h : c.pos + len ≤ c.buf.bytes.length then .ok (c.rest.take len, c.advance len h)
  else .error (.incomplete (c.pos + len))

def uint (width : Nat) : Unpack Nat := fun c => do
  let (bytes, c) ← take width c
  return (beValue bytes, c)

def u8 : Unpack Nat := uint 1

def u32 : Unpack Nat := uint 4

def u64 : Unpack Nat := uint 8

def bool : Unpack Bool := fun c => do
  let (byte, c) ← u8 c
  match byte with
  | 0 => return (false, c)
  | 1 => return (true, c)
  | _ => .error (.malformed .outOfDomain)

/-- A byte string behind its length. -/
def bytes : Unpack (List UInt8) := fun c => do
  let (declared, c) ← u32 c
  take declared c

def finish (c : Cursor) : Except UnpackError Unit :=
  if c.remaining = 0 then .ok () else .error (.malformed (.trailingBytes c.remaining))

end UnpackCursor

/-- A value that takes up the whole buffer. -/
def unpackFrom {α : Type} (unpack : Unpack α) (buf : Slice) : Except UnpackError α := do
  let (value, c) ← unpack (Cursor.start buf)
  UnpackCursor.finish c
  return value

namespace UnpackCursor

theorem take_decodes (len : Nat) :
    Decodes (take len) (fun bytes => bytes) fun bytes => bytes.length = len := by
  intro c bytes c'
  unfold take
  constructor
  · intro h
    split at h
    · cases h
    · split at h
      · rename_i hwithin
        cases h
        refine ⟨?_, Cursor.advance_spans hwithin⟩
        show (c.rest.take len).length = len
        rw [List.length_take, c.rest_length]
        unfold Cursor.remaining
        omega
      · cases h
  · rintro ⟨rfl, hspan⟩
    have hspan : c.Spans bytes c' := hspan
    have hwithin := c'.within
    rw [hspan.pos, hspan.buf] at hwithin
    have hbound : ¬u64Bound ≤ c.pos + bytes.length :=
      Nat.not_le.mpr (Nat.lt_trans (Nat.lt_of_le_of_lt hwithin c.buf.sized) (by decide))
    have hadvance := Cursor.advance_spans hwithin
    have htake : c.rest.take bytes.length = bytes := by rw [hspan.rest, List.take_left]
    rw [htake] at hadvance
    rw [if_neg hbound, dif_pos hwithin, htake, hadvance.unique hspan]

theorem uint_decodes (width : Nat) :
    Decodes (uint width) (beBytes width) fun value => value < 256 ^ width := by
  intro c value c'
  unfold uint
  simp only [bind_eq_ok, Prod.exists, pure_eq_ok, Prod.mk.injEq, take_decodes width c]
  constructor
  · rintro ⟨bytes, _, ⟨hlength, hspan⟩, rfl, rfl⟩
    rw [beBytes_beValue hlength]
    exact ⟨hlength ▸ beValue_lt bytes, hspan⟩
  · rintro ⟨hvalue, hspan⟩
    exact ⟨_, _, ⟨beBytes_length _ _, hspan⟩, beValue_beBytes hvalue, rfl⟩

theorem u8_decodes : Decodes u8 PackWriter.u8 (· < 256) := uint_decodes 1

theorem u32_decodes : Decodes u32 PackWriter.u32 (· < u32Bound) := uint_decodes 4

theorem u64_decodes : Decodes u64 PackWriter.u64 (· < u64Bound) := uint_decodes 8

theorem bool_decodes : Decodes bool PackWriter.bool fun _ => True := by
  intro c value c'
  unfold bool
  simp only [bind_eq_ok, Prod.exists, u8_decodes c, true_and]
  constructor
  · rintro ⟨byte, c'', ⟨-, hspan⟩, hok⟩
    split at hok
    · cases pure_eq_ok.mp hok
      exact hspan
    · cases pure_eq_ok.mp hok
      exact hspan
    · cases hok
  · intro hspan
    refine ⟨value.toNat, c', ⟨Nat.lt_of_lt_of_le value.toNat_lt (by decide), hspan⟩, ?_⟩
    cases value with
    | false => rfl
    | true => rfl

theorem bytes_decodes :
    Decodes bytes PackWriter.bytes fun value => value.length < u32Bound := by
  intro c value c'
  unfold bytes PackWriter.bytes
  simp only [bind_eq_ok, Prod.exists, u32_decodes c, take_decodes _ _ _ _]
  constructor
  · rintro ⟨declared, _, ⟨hbound, hspan⟩, rfl, hspan'⟩
    exact ⟨hbound, hspan.append hspan'⟩
  · rintro ⟨hbound, hspan⟩
    obtain ⟨c'', hfront, hback⟩ := Cursor.spans_append.mp hspan
    exact ⟨_, c'', ⟨hbound, hfront⟩, rfl, hback⟩

end UnpackCursor

/-! ### System operations -/

namespace SystemOperation

/-- The byte in front of an operation. 0 is reserved: an all-zero buffer is malformed. -/
def discriminant : SystemOperation → Nat
  | .void => 1
  | .init _ => 2
  | .increment _ => 3
  | .decrement _ => 4
  | .double => 5
  | .halve => 6
  | .join _ _ => 7
  | .leave _ => 8
  | .batch _ => 9
  | .nominate _ _ => 10

mutual

def pack : SystemOperation → List UInt8
  | .void => PackWriter.u8 1
  | .double => PackWriter.u8 5
  | .halve => PackWriter.u8 6
  | .init order =>
    PackWriter.u8 2 ++ (PackWriter.u32 order.length ++ order.flatMap PackWriter.u32)
  | .increment node => PackWriter.u8 3 ++ PackWriter.u32 node
  | .decrement node => PackWriter.u8 4 ++ PackWriter.u32 node
  | .leave node => PackWriter.u8 8 ++ PackWriter.u32 node
  | .join node position => PackWriter.u8 7 ++ (PackWriter.u32 node ++ PackWriter.u32 position)
  | .nominate fromView offset =>
    PackWriter.u8 10 ++ (PackWriter.u32 fromView ++ PackWriter.u32 offset)
  | .batch ops => PackWriter.u8 9 ++ (PackWriter.u32 ops.length ++ packAll ops)

def packAll : List SystemOperation → List UInt8
  | [] => []
  | op :: ops => op.pack ++ packAll ops

end

mutual

/-- The fields are as wide as their types, and the counts fit their prefixes. -/
def Encodable : SystemOperation → Prop
  | .void | .double | .halve => True
  | .init order => order.length < u32Bound ∧ ∀ node ∈ order, node < u32Bound
  | .increment node | .decrement node | .leave node => node < u32Bound
  | .join node position => node < u32Bound ∧ position < u32Bound
  | .nominate fromView offset => fromView < u32Bound ∧ offset < u32Bound
  | .batch ops => ops.length < u32Bound ∧ AllEncodable ops

def AllEncodable : List SystemOperation → Prop
  | [] => True
  | op :: ops => op.Encodable ∧ AllEncodable ops

end

/-- The fields behind a discriminant, nested operations read by the decoder given. -/
def unpackFields (nested : Unpack SystemOperation) (discriminant : Nat) : Unpack SystemOperation :=
  fun c => do
    match discriminant with
    | 1 => return (.void, c)
    | 2 =>
      let (count, c) ← UnpackCursor.u32 c
      let (order, c) ← many UnpackCursor.u32 count c
      return (.init order, c)
    | 3 =>
      let (node, c) ← UnpackCursor.u32 c
      return (.increment node, c)
    | 4 =>
      let (node, c) ← UnpackCursor.u32 c
      return (.decrement node, c)
    | 5 => return (.double, c)
    | 6 => return (.halve, c)
    | 7 =>
      let (node, c) ← UnpackCursor.u32 c
      let (position, c) ← UnpackCursor.u32 c
      return (.join node position, c)
    | 8 =>
      let (node, c) ← UnpackCursor.u32 c
      return (.leave node, c)
    | 10 =>
      let (fromView, c) ← UnpackCursor.u32 c
      let (offset, c) ← UnpackCursor.u32 c
      return (.nominate fromView offset, c)
    | 9 =>
      let (count, c) ← UnpackCursor.u32 c
      let (ops, c) ← many nested count c
      return (.batch ops, c)
    | _ => .error (.malformed .outOfDomain)

/-- An operation nested no deeper than `depth`. -/
def unpackNested : (depth : Nat) → Unpack SystemOperation
  | 0, c => .error (.incomplete (c.pos + 1))
  | depth + 1, c => do
    let (discriminant, c) ← UnpackCursor.u8 c
    unpackFields (unpackNested depth) discriminant c

/-- Every level takes a byte at least, so there are no more of them than bytes left. -/
def unpack : Unpack SystemOperation := fun c => unpackNested (c.remaining + 1) c

theorem packAll_eq (ops : List SystemOperation) : packAll ops = ops.flatMap pack := by
  induction ops with
  | nil => rfl
  | cons op ops ih => rw [packAll, List.flatMap_cons, ih]

theorem allEncodable_iff {ops : List SystemOperation} :
    AllEncodable ops ↔ ∀ op ∈ ops, op.Encodable := by
  induction ops with
  | nil => simp [AllEncodable]
  | cons op ops ih => rw [AllEncodable, ih, List.forall_mem_cons]

/-- What stands behind the discriminant. -/
def packFields : SystemOperation → List UInt8
  | .void | .double | .halve => []
  | .init order => PackWriter.u32 order.length ++ order.flatMap PackWriter.u32
  | .increment node | .decrement node | .leave node => PackWriter.u32 node
  | .join node position => PackWriter.u32 node ++ PackWriter.u32 position
  | .nominate fromView offset => PackWriter.u32 fromView ++ PackWriter.u32 offset
  | .batch ops => PackWriter.u32 ops.length ++ ops.flatMap pack

theorem pack_eq (op : SystemOperation) :
    op.pack = PackWriter.u8 op.discriminant ++ op.packFields := by
  cases op with
  | batch ops =>
    rw [pack, packAll_eq]
    rfl
  | _ => rfl

theorem discriminant_lt (op : SystemOperation) : op.discriminant < 256 := by
  unfold discriminant
  split <;> decide

/-- The fields of one operation, by its discriminant. -/
theorem unpackFields_decodes {bound : Nat} {nested : Unpack SystemOperation}
    (h : DecodesWithin bound nested pack Encodable) (kind : Nat) {c : Cursor}
    (hbound : c.remaining ≤ bound) (op : SystemOperation) (c' : Cursor) :
    unpackFields nested kind c = .ok (op, c') ↔
      op.discriminant = kind ∧ op.Encodable ∧ c.Spans op.packFields c' := by
  have hmany : ∀ {c₁ : Cursor}, c₁.remaining ≤ bound → ∀ count ops c₂,
      many nested count c₁ = .ok (ops, c₂) ↔
        (ops.length = count ∧ ∀ op ∈ ops, op.Encodable) ∧ c₁.Spans (ops.flatMap pack) c₂ :=
    fun hle count => h.many count _ hle
  constructor
  · intro hok
    unfold unpackFields at hok
    split at hok
    case h_1 | h_5 | h_6 =>
      cases hok
      exact ⟨rfl, trivial, Cursor.spans_nil.mpr rfl⟩
    case h_11 => cases hok
    all_goals simp only [bind_eq_ok, Prod.exists, pure_eq_ok, Prod.mk.injEq,
      UnpackCursor.u32_decodes _ _ _, UnpackCursor.u32_decodes.many _ _ _ _] at hok
    · obtain ⟨count, _, ⟨hcount, h₁⟩, order, _, ⟨⟨rfl, hall⟩, h₂⟩, rfl, rfl⟩ := hok
      exact ⟨rfl, ⟨hcount, hall⟩, h₁.append h₂⟩
    · obtain ⟨node, _, ⟨hnode, h₁⟩, rfl, rfl⟩ := hok
      exact ⟨rfl, hnode, h₁⟩
    · obtain ⟨node, _, ⟨hnode, h₁⟩, rfl, rfl⟩ := hok
      exact ⟨rfl, hnode, h₁⟩
    · obtain ⟨node, _, ⟨hnode, h₁⟩, position, _, ⟨hposition, h₂⟩, rfl, rfl⟩ := hok
      exact ⟨rfl, ⟨hnode, hposition⟩, h₁.append h₂⟩
    · obtain ⟨node, _, ⟨hnode, h₁⟩, rfl, rfl⟩ := hok
      exact ⟨rfl, hnode, h₁⟩
    · obtain ⟨fromView, _, ⟨hview, h₁⟩, offset, _, ⟨hoffset, h₂⟩, rfl, rfl⟩ := hok
      exact ⟨rfl, ⟨hview, hoffset⟩, h₁.append h₂⟩
    · obtain ⟨count, c₁, ⟨hcount, h₁⟩, ops, _, hops, rfl, rfl⟩ := hok
      have hle : c₁.remaining ≤ bound := by
        have := h₁.remaining
        omega
      obtain ⟨⟨rfl, hall⟩, h₂⟩ := (hmany hle _ _ _).mp hops
      exact ⟨rfl, ⟨hcount, allEncodable_iff.mpr hall⟩, h₁.append h₂⟩
  · rintro ⟨rfl, hvalid, hspan⟩
    unfold unpackFields
    unfold packFields at hspan
    cases op with
    | void | double | halve =>
      obtain rfl := Cursor.spans_nil.mp hspan
      rfl
    | init order =>
      obtain ⟨c₁, h₁, h₂⟩ := Cursor.spans_append.mp hspan
      simp only [discriminant, bind_eq_ok, Prod.exists, pure_eq_ok, Prod.mk.injEq,
        UnpackCursor.u32_decodes _ _ _, UnpackCursor.u32_decodes.many _ _ _ _]
      exact ⟨_, c₁, ⟨hvalid.1, h₁⟩, order, c', ⟨⟨rfl, hvalid.2⟩, h₂⟩, rfl, rfl⟩
    | increment node | decrement node | leave node =>
      simp only [discriminant, bind_eq_ok, Prod.exists, pure_eq_ok, Prod.mk.injEq,
        UnpackCursor.u32_decodes _ _ _]
      exact ⟨node, c', ⟨hvalid, hspan⟩, rfl, rfl⟩
    | join first second | nominate first second =>
      obtain ⟨c₁, h₁, h₂⟩ := Cursor.spans_append.mp hspan
      simp only [discriminant, bind_eq_ok, Prod.exists, pure_eq_ok, Prod.mk.injEq,
        UnpackCursor.u32_decodes _ _ _]
      exact ⟨first, c₁, ⟨hvalid.1, h₁⟩, second, c', ⟨hvalid.2, h₂⟩, rfl, rfl⟩
    | batch ops =>
      obtain ⟨c₁, h₁, h₂⟩ := Cursor.spans_append.mp hspan
      have hle : c₁.remaining ≤ bound := by
        have := h₁.remaining
        omega
      simp only [discriminant, bind_eq_ok, Prod.exists, pure_eq_ok, Prod.mk.injEq,
        UnpackCursor.u32_decodes _ _ _]
      exact ⟨_, c₁, ⟨hvalid.1, h₁⟩, ops, c',
        (hmany hle _ _ _).mpr ⟨⟨rfl, allEncodable_iff.mp hvalid.2⟩, h₂⟩, rfl, rfl⟩

/-- One level more than bytes reads every operation: its discriminant leaves fewer of both. -/
theorem unpackNested_decodes (bound : Nat) :
    DecodesWithin bound (unpackNested (bound + 1)) pack Encodable := by
  induction bound with
  | zero =>
    intro c hbound op c'
    have hnone : ∀ {byte : Nat} {c₁ : Cursor}, ¬c.Spans (PackWriter.u8 byte) c₁ := by
      intro byte c₁ hspan
      have := hspan.remaining
      rw [PackWriter.u8, beBytes_length] at this
      omega
    constructor
    · intro hok
      simp only [unpackNested, bind_eq_ok, Prod.exists, UnpackCursor.u8_decodes c] at hok
      obtain ⟨_, _, ⟨-, hspan⟩, -⟩ := hok
      exact absurd hspan hnone
    · rintro ⟨-, hspan⟩
      rw [pack_eq] at hspan
      obtain ⟨_, hfront, -⟩ := Cursor.spans_append.mp hspan
      exact absurd hfront hnone
  | succ bound ih =>
    intro c hbound op c'
    have hless : ∀ {byte : Nat} {c₁ : Cursor}, c.Spans (PackWriter.u8 byte) c₁ →
        c₁.remaining ≤ bound := by
      intro byte c₁ hspan
      have := hspan.remaining
      rw [PackWriter.u8, beBytes_length] at this
      omega
    simp only [unpackNested, bind_eq_ok, Prod.exists, UnpackCursor.u8_decodes c]
    constructor
    · rintro ⟨kind, c₁, ⟨-, hfront⟩, hok⟩
      obtain ⟨rfl, hvalid, hback⟩ := (unpackFields_decodes ih kind (hless hfront) op c').mp hok
      exact ⟨hvalid, pack_eq op ▸ hfront.append hback⟩
    · rintro ⟨hvalid, hspan⟩
      rw [pack_eq] at hspan
      obtain ⟨c₁, hfront, hback⟩ := Cursor.spans_append.mp hspan
      exact ⟨_, c₁, ⟨discriminant_lt op, hfront⟩,
        (unpackFields_decodes ih _ (hless hfront) op c').mpr ⟨rfl, hvalid, hback⟩⟩

theorem unpack_decodes : Decodes unpack pack Encodable :=
  fun c => unpackNested_decodes c.remaining c (Nat.le_refl _)

theorem packedLenList_eq (ops : List SystemOperation) :
    packedLenList ops = (ops.map packedLen).sum := by
  induction ops with
  | nil => rfl
  | cons op ops ih => rw [packedLenList, ih, List.map_cons, List.sum_cons]

/-- **The length is exact**, by induction on how deep the operation is nested. -/
theorem pack_length (op : SystemOperation) : op.pack.length = op.packedLen := by
  induction hsize : sizeOf op using Nat.strong_induction_on generalizing op with
  | _ size ih =>
    cases op with
    | batch ops =>
      have hops : ∀ op ∈ ops, op.pack.length = op.packedLen := by
        intro op hmem
        have hlt := List.sizeOf_lt_of_mem hmem
        exact ih (sizeOf op) (by simp at hsize; omega) op rfl
      rw [pack, packAll_eq, packedLen, packedLenList_eq, ← List.map_congr_left hops]
      simp [PackWriter.u8, PackWriter.u32, List.length_flatMap]
      omega
    | init order =>
      simp [pack, packedLen, PackWriter.u8, PackWriter.u32, List.length_flatMap]
      omega
    | _ => rfl

end SystemOperation

/-! ### Entries, ballots and proofs -/

namespace OperationId

def packedLen (_ : OperationId) : Nat := 8 + 8

def pack (id : OperationId) : List UInt8 := PackWriter.u64 id.msb ++ PackWriter.u64 id.lsb

def Encodable (id : OperationId) : Prop := id.msb < u64Bound ∧ id.lsb < u64Bound

def unpack : Unpack OperationId := fun c => do
  let (msb, c) ← UnpackCursor.u64 c
  let (lsb, c) ← UnpackCursor.u64 c
  return (⟨msb, lsb⟩, c)

theorem unpack_decodes : Decodes unpack pack Encodable := by
  intro c id c'
  simp only [unpack, pack, Encodable, bind_eq_ok, Prod.exists, pure_eq_ok, Prod.mk.injEq,
    UnpackCursor.u64_decodes _ _ _, Cursor.spans_append]
  constructor
  · rintro ⟨msb, c₁, ⟨hmsb, h₁⟩, lsb, _, ⟨hlsb, h₂⟩, rfl, rfl⟩
    exact ⟨⟨hmsb, hlsb⟩, c₁, h₁, h₂⟩
  · rintro ⟨⟨hmsb, hlsb⟩, c₁, h₁, h₂⟩
    exact ⟨_, c₁, ⟨hmsb, h₁⟩, _, c', ⟨hlsb, h₂⟩, rfl, rfl⟩

end OperationId

namespace Ballot

def packedLen (_ : Ballot) : Nat := 4 + 4

def pack (b : Ballot) : List UInt8 := PackWriter.u32 b.era ++ PackWriter.u32 b.view

def Encodable (b : Ballot) : Prop := b.era < u32Bound ∧ b.view < u32Bound

def unpack : Unpack Ballot := fun c => do
  let (era, c) ← UnpackCursor.u32 c
  let (view, c) ← UnpackCursor.u32 c
  return (⟨era, view⟩, c)

theorem unpack_decodes : Decodes unpack pack Encodable := by
  intro c b c'
  simp only [unpack, pack, Encodable, bind_eq_ok, Prod.exists, pure_eq_ok, Prod.mk.injEq,
    UnpackCursor.u32_decodes _ _ _, Cursor.spans_append]
  constructor
  · rintro ⟨era, c₁, ⟨hera, h₁⟩, view, _, ⟨hview, h₂⟩, rfl, rfl⟩
    exact ⟨⟨hera, hview⟩, c₁, h₁, h₂⟩
  · rintro ⟨⟨hera, hview⟩, c₁, h₁, h₂⟩
    exact ⟨_, c₁, ⟨hera, h₁⟩, _, c', ⟨hview, h₂⟩, rfl, rfl⟩

end Ballot

namespace Payload

def pack : Payload → List UInt8
  | .operation id payload => PackWriter.u8 1 ++ (id.pack ++ PackWriter.bytes payload)
  | .system op => PackWriter.u8 2 ++ op.pack

def Encodable : Payload → Prop
  | .operation id payload => id.Encodable ∧ payload.length < u32Bound
  | .system op => op.Encodable

def unpack : Unpack Payload := fun c => do
  let (kind, c) ← UnpackCursor.u8 c
  match kind with
  | 1 =>
    let (id, c) ← OperationId.unpack c
    let (payload, c) ← UnpackCursor.bytes c
    return (.operation id payload, c)
  | 2 =>
    let (op, c) ← SystemOperation.unpack c
    return (.system op, c)
  | _ => .error (.malformed .outOfDomain)

theorem unpack_decodes : Decodes unpack pack Encodable := by
  intro c payload c'
  unfold unpack
  simp only [bind_eq_ok, Prod.exists, UnpackCursor.u8_decodes c]
  constructor
  · rintro ⟨kind, c₁, ⟨-, h₁⟩, hok⟩
    split at hok
    case h_3 => cases hok
    all_goals simp only [bind_eq_ok, Prod.exists, pure_eq_ok, Prod.mk.injEq,
      OperationId.unpack_decodes _ _ _, UnpackCursor.bytes_decodes _ _ _,
      SystemOperation.unpack_decodes _ _ _] at hok
    · obtain ⟨id, _, ⟨hid, h₂⟩, payload, _, ⟨hpayload, h₃⟩, rfl, rfl⟩ := hok
      exact ⟨⟨hid, hpayload⟩, h₁.append (h₂.append h₃)⟩
    · obtain ⟨op, _, ⟨hop, h₂⟩, rfl, rfl⟩ := hok
      exact ⟨hop, h₁.append h₂⟩
  · rintro ⟨hvalid, hspan⟩
    cases payload with
    | operation id payload =>
      obtain ⟨c₁, h₁, hspan⟩ := Cursor.spans_append.mp hspan
      obtain ⟨c₂, h₂, h₃⟩ := Cursor.spans_append.mp hspan
      refine ⟨1, c₁, ⟨by decide, h₁⟩, ?_⟩
      simp only [bind_eq_ok, Prod.exists, pure_eq_ok, Prod.mk.injEq,
        OperationId.unpack_decodes _ _ _, UnpackCursor.bytes_decodes _ _ _]
      exact ⟨id, c₂, ⟨hvalid.1, h₂⟩, payload, c', ⟨hvalid.2, h₃⟩, rfl, rfl⟩
    | system op =>
      obtain ⟨c₁, h₁, h₂⟩ := Cursor.spans_append.mp hspan
      refine ⟨2, c₁, ⟨by decide, h₁⟩, ?_⟩
      simp only [bind_eq_ok, Prod.exists, pure_eq_ok, Prod.mk.injEq,
        SystemOperation.unpack_decodes _ _ _]
      exact ⟨op, c', ⟨hvalid, h₂⟩, rfl, rfl⟩

theorem pack_length (payload : Payload) : payload.pack.length = payload.packedLen := by
  cases payload with
  | operation id payload =>
    simp [pack, packedLen, OperationId.pack, PackWriter.u8, PackWriter.u32, PackWriter.u64,
      PackWriter.bytes]
    omega
  | system op => simp [pack, packedLen, PackWriter.u8, SystemOperation.pack_length]

end Payload

namespace LogEntry

def pack (entry : LogEntry) : List UInt8 :=
  PackWriter.u64 entry.slot ++ (PackWriter.u32 entry.era ++ entry.payload.pack)

def Encodable (entry : LogEntry) : Prop :=
  entry.slot < u64Bound ∧ entry.era < u32Bound ∧ entry.payload.Encodable

def unpack : Unpack LogEntry := fun c => do
  let (slot, c) ← UnpackCursor.u64 c
  let (era, c) ← UnpackCursor.u32 c
  let (payload, c) ← Payload.unpack c
  return (⟨slot, era, payload⟩, c)

theorem unpack_decodes : Decodes unpack pack Encodable := by
  intro c entry c'
  simp only [unpack, pack, Encodable, bind_eq_ok, Prod.exists, pure_eq_ok, Prod.mk.injEq,
    UnpackCursor.u64_decodes _ _ _, UnpackCursor.u32_decodes _ _ _, Payload.unpack_decodes _ _ _,
    Cursor.spans_append]
  constructor
  · rintro ⟨slot, c₁, ⟨hslot, h₁⟩, era, c₂, ⟨hera, h₂⟩, payload, _, ⟨hpayload, h₃⟩, rfl, rfl⟩
    exact ⟨⟨hslot, hera, hpayload⟩, c₁, h₁, c₂, h₂, h₃⟩
  · rintro ⟨⟨hslot, hera, hpayload⟩, c₁, h₁, c₂, h₂, h₃⟩
    exact ⟨_, c₁, ⟨hslot, h₁⟩, _, c₂, ⟨hera, h₂⟩, _, c', ⟨hpayload, h₃⟩, rfl, rfl⟩

theorem pack_length (entry : LogEntry) : entry.pack.length = entry.packedLen := by
  simp [pack, packedLen, PackWriter.u32, PackWriter.u64, Payload.pack_length]
  omega

end LogEntry

namespace EvidenceKind

def packedLen (_ : EvidenceKind) : Nat := 1

def pack : EvidenceKind → List UInt8
  | .ordinary => PackWriter.u8 1
  | .planned => PackWriter.u8 2

def unpack : Unpack EvidenceKind := fun c => do
  let (kind, c) ← UnpackCursor.u8 c
  match kind with
  | 1 => return (.ordinary, c)
  | 2 => return (.planned, c)
  | _ => .error (.malformed .outOfDomain)

theorem unpack_decodes : Decodes unpack pack fun _ => True := by
  intro c kind c'
  unfold unpack
  simp only [bind_eq_ok, Prod.exists, UnpackCursor.u8_decodes c, true_and]
  constructor
  · rintro ⟨byte, c'', ⟨-, hspan⟩, hok⟩
    split at hok
    · cases pure_eq_ok.mp hok
      exact hspan
    · cases pure_eq_ok.mp hok
      exact hspan
    · cases hok
  · intro hspan
    cases kind with
    | ordinary => exact ⟨1, c', ⟨by decide, hspan⟩, rfl⟩
    | planned => exact ⟨2, c', ⟨by decide, hspan⟩, rfl⟩

end EvidenceKind

namespace EraProof

def packedLen (proof : EraProof) : Nat := proof.op.packedLen + 8

def pack (proof : EraProof) : List UInt8 := proof.op.pack ++ PackWriter.u64 proof.committedAt

def Encodable (proof : EraProof) : Prop := proof.op.Encodable ∧ proof.committedAt < u64Bound

def unpack : Unpack EraProof := fun c => do
  let (op, c) ← SystemOperation.unpack c
  let (committedAt, c) ← UnpackCursor.u64 c
  return (⟨op, committedAt⟩, c)

theorem unpack_decodes : Decodes unpack pack Encodable := by
  intro c proof c'
  simp only [unpack, pack, Encodable, bind_eq_ok, Prod.exists, pure_eq_ok, Prod.mk.injEq,
    SystemOperation.unpack_decodes _ _ _, UnpackCursor.u64_decodes _ _ _, Cursor.spans_append]
  constructor
  · rintro ⟨op, c₁, ⟨hop, h₁⟩, committedAt, _, ⟨hslot, h₂⟩, rfl, rfl⟩
    exact ⟨⟨hop, hslot⟩, c₁, h₁, h₂⟩
  · rintro ⟨⟨hop, hslot⟩, c₁, h₁, h₂⟩
    exact ⟨_, c₁, ⟨hop, h₁⟩, _, c', ⟨hslot, h₂⟩, rfl, rfl⟩

end EraProof

/-! ### Sequences -/

def entriesPackedLen (entries : List LogEntry) : Nat := 4 + (entries.map LogEntry.packedLen).sum

def packEntries (entries : List LogEntry) : List UInt8 :=
  PackWriter.u32 entries.length ++ entries.flatMap LogEntry.pack

/-- The count fits its prefix. -/
def EntriesEncodable (entries : List LogEntry) : Prop :=
  entries.length < u32Bound ∧ ∀ entry ∈ entries, entry.Encodable

def unpackEntries : Unpack (List LogEntry) := fun c => do
  let (count, c) ← UnpackCursor.u32 c
  many LogEntry.unpack count c

theorem unpackEntries_decodes : Decodes unpackEntries packEntries EntriesEncodable := by
  intro c entries c'
  simp only [unpackEntries, packEntries, EntriesEncodable, bind_eq_ok, Prod.exists,
    UnpackCursor.u32_decodes _ _ _, LogEntry.unpack_decodes.many _ _ _ _, Cursor.spans_append]
  constructor
  · rintro ⟨count, c₁, ⟨hcount, h₁⟩, ⟨rfl, hall⟩, h₂⟩
    exact ⟨⟨hcount, hall⟩, c₁, h₁, h₂⟩
  · rintro ⟨⟨hcount, hall⟩, c₁, h₁, h₂⟩
    exact ⟨_, c₁, ⟨hcount, h₁⟩, ⟨rfl, hall⟩, h₂⟩

theorem packEntries_length (entries : List LogEntry) :
    (packEntries entries).length = entriesPackedLen entries := by
  simp [packEntries, entriesPackedLen, PackWriter.u32, List.length_flatMap,
    funext LogEntry.pack_length]

section

variable {α : Type}

def countedPackedLen (packedLen : α → Nat) (items : List α) : Nat :=
  4 + (items.map packedLen).sum

def packCounted (pack : α → List UInt8) (items : List α) : List UInt8 :=
  PackWriter.u32 items.length ++ items.flatMap pack

/-- The count fits its prefix, and it is not 0: an envelope of nothing is not one. -/
def CountedEncodable (valid : α → Prop) (items : List α) : Prop :=
  items ≠ [] ∧ items.length < u32Bound ∧ ∀ item ∈ items, valid item

def unpackCounted (unpack : Unpack α) : Unpack (List α) := fun c => do
  let (count, c) ← UnpackCursor.u32 c
  if count = 0 then .error (.malformed .outOfDomain)
  many unpack count c

theorem unpackCounted_decodes {unpack : Unpack α} {pack : α → List UInt8} {valid : α → Prop}
    (h : Decodes unpack pack valid) :
    Decodes (unpackCounted unpack) (packCounted pack) (CountedEncodable valid) := by
  intro c items c'
  unfold unpackCounted packCounted CountedEncodable
  simp only [bind_eq_ok, Prod.exists, UnpackCursor.u32_decodes _ _ _, Cursor.spans_append]
  constructor
  · rintro ⟨count, c₁, ⟨hcount, h₁⟩, hok⟩
    split at hok
    · cases hok
    · rename_i hzero
      obtain ⟨⟨rfl, hall⟩, h₂⟩ := (h.many count c₁ items c').mp hok
      exact ⟨⟨List.ne_nil_of_length_pos (Nat.pos_of_ne_zero hzero), hcount, hall⟩, c₁, h₁, h₂⟩
  · rintro ⟨⟨hne, hcount, hall⟩, c₁, h₁, h₂⟩
    refine ⟨_, c₁, ⟨hcount, h₁⟩, ?_⟩
    rw [if_neg (mt List.length_eq_zero_iff.mp hne)]
    exact (h.many _ c₁ items c').mpr ⟨⟨rfl, hall⟩, h₂⟩

theorem packCounted_length {pack : α → List UInt8} {packedLen : α → Nat}
    (h : ∀ item, (pack item).length = packedLen item) (items : List α) :
    (packCounted pack items).length = countedPackedLen packedLen items := by
  simp [packCounted, countedPackedLen, PackWriter.u32, List.length_flatMap, funext h]

end

/-! ### Tags and headers -/

namespace Tag

def asU32 : Tag → Nat
  | .prepare => 2
  | .prepareOk => 3
  | .commit => 4
  | .startViewChange => 5
  | .doViewChange => 6
  | .startView => 7
  | .plannedViewChange => 8
  | .getState => 9
  | .newState => 10
  | .reincarnation => 13
  | .fuse => 14
  | .fuseOk => 15
  | .commitBatch => 16
  | .gossipRequest => 17

/-- `none` for 0, for what is above the table, and for the numbers 1, 11 and 12, which are
retired. -/
def fromU32 : Nat → Option Tag
  | 2 => some .prepare
  | 3 => some .prepareOk
  | 4 => some .commit
  | 5 => some .startViewChange
  | 6 => some .doViewChange
  | 7 => some .startView
  | 8 => some .plannedViewChange
  | 9 => some .getState
  | 10 => some .newState
  | 13 => some .reincarnation
  | 14 => some .fuse
  | 15 => some .fuseOk
  | 16 => some .commitBatch
  | 17 => some .gossipRequest
  | _ => none

def packedLen (_ : Tag) : Nat := 4

def pack (tag : Tag) : List UInt8 := PackWriter.u32 tag.asU32

def unpack : Unpack Tag := fun c => do
  let (raw, c) ← UnpackCursor.u32 c
  match fromU32 raw with
  | some tag => return (tag, c)
  | none => .error (.malformed (.unknownTag raw))

theorem fromU32_eq_some {raw : Nat} {tag : Tag} : fromU32 raw = some tag ↔ raw = tag.asU32 := by
  constructor
  · intro h
    unfold fromU32 at h
    split at h
    all_goals cases h
    all_goals rfl
  · rintro rfl
    cases tag <;> rfl

theorem asU32_lt (tag : Tag) : tag.asU32 < 256 := by
  cases tag <;> decide

theorem unpack_decodes : Decodes unpack pack fun _ => True := by
  intro c tag c'
  unfold unpack pack
  simp only [bind_eq_ok, Prod.exists, UnpackCursor.u32_decodes c, true_and]
  constructor
  · rintro ⟨raw, c'', ⟨-, hspan⟩, hok⟩
    split at hok
    · rename_i htag
      cases pure_eq_ok.mp hok
      exact fromU32_eq_some.mp htag ▸ hspan
    · cases hok
  · intro hspan
    refine ⟨tag.asU32, c', ⟨Nat.lt_trans tag.asU32_lt (by decide), hspan⟩, ?_⟩
    rw [fromU32_eq_some.mpr rfl]
    rfl

end Tag

/-- A header as it stands on the wire, its tag in front. -/
structure WireHeader where
  tag : Tag
  view : Ballot
  slot : Nat
deriving DecidableEq, Repr

namespace WireHeader

def packedLen (header : WireHeader) : Nat := header.tag.packedLen + header.view.packedLen + 8

def pack (header : WireHeader) : List UInt8 :=
  header.tag.pack ++ (header.view.pack ++ PackWriter.u64 header.slot)

def Encodable (header : WireHeader) : Prop := header.view.Encodable ∧ header.slot < u64Bound

def unpack : Unpack WireHeader := fun c => do
  let (tag, c) ← Tag.unpack c
  let (view, c) ← Ballot.unpack c
  let (slot, c) ← UnpackCursor.u64 c
  return (⟨tag, view, slot⟩, c)

theorem unpack_decodes : Decodes unpack pack Encodable := by
  intro c header c'
  simp only [unpack, pack, Encodable, bind_eq_ok, Prod.exists, pure_eq_ok, Prod.mk.injEq,
    Tag.unpack_decodes _ _ _, Ballot.unpack_decodes _ _ _, UnpackCursor.u64_decodes _ _ _,
    Cursor.spans_append, true_and]
  constructor
  · rintro ⟨tag, c₁, h₁, view, c₂, ⟨hview, h₂⟩, slot, _, ⟨hslot, h₃⟩, rfl, rfl⟩
    exact ⟨⟨hview, hslot⟩, c₁, h₁, c₂, h₂, h₃⟩
  · rintro ⟨⟨hview, hslot⟩, c₁, h₁, c₂, h₂, h₃⟩
    exact ⟨_, c₁, h₁, _, c₂, ⟨hview, h₂⟩, _, c', ⟨hslot, h₃⟩, rfl, rfl⟩

theorem pack_length (header : WireHeader) : header.pack.length = header.packedLen := by
  simp [pack, packedLen, Tag.pack, Tag.packedLen, Ballot.pack, Ballot.packedLen, PackWriter.u32,
    PackWriter.u64]

end WireHeader

/-! ### Bodies -/

namespace Body

/-- The tag's number, in one byte. -/
def discriminant (body : Body) : Nat := body.tag.asU32

def packedLen (body : Body) : Nat :=
  let fields :=
    match body with
    | .prepare entry _ => entry.packedLen + 8
    | .prepareOk | .startViewChange | .plannedViewChange => 0
    | .commit _ => 8
    | .doViewChange retained _ _ suffix evidence eraProof =>
      retained.packedLen + 8 + 8 + entriesPackedLen suffix + evidence.packedLen
        + eraProof.packedLen
    | .startView suffix _ _ eraProof => entriesPackedLen suffix + 8 + 8 + eraProof.packedLen
    | .getState _ => 8
    | .newState entries _ _ _ => entriesPackedLen entries + 8 + 8 + 1
    | .reincarnation _ _ _ _ => 4 + 4 + 8 + 8
    | .fuse ops => countedPackedLen SystemOperation.packedLen ops
    | .fuseOk acks => countedPackedLen (fun _ => 8) acks
    | .commitBatch committed => countedPackedLen (fun _ => 8) committed
    | .gossipRequest _ _ => 8 + 8
  1 + fields

def packFields : Body → List UInt8
  | .prepare entry committed => entry.pack ++ PackWriter.u64 committed
  | .prepareOk | .startViewChange | .plannedViewChange => []
  | .commit committed => PackWriter.u64 committed
  | .doViewChange retained accepted committed suffix evidence eraProof =>
    retained.pack ++ (PackWriter.u64 accepted ++ (PackWriter.u64 committed ++
      (packEntries suffix ++ (evidence.pack ++ eraProof.pack))))
  | .startView suffix accepted committed eraProof =>
    packEntries suffix ++ (PackWriter.u64 accepted ++ (PackWriter.u64 committed ++ eraProof.pack))
  | .getState start => PackWriter.u64 start
  | .newState entries through committed more =>
    packEntries entries ++ (PackWriter.u64 through ++ (PackWriter.u64 committed ++
      PackWriter.bool more))
  | .reincarnation old new committed prepared =>
    PackWriter.u32 old ++ (PackWriter.u32 new ++ (PackWriter.u64 committed ++
      PackWriter.u64 prepared))
  | .fuse ops => packCounted SystemOperation.pack ops
  | .fuseOk acks => packCounted PackWriter.u64 acks
  | .commitBatch committed => packCounted PackWriter.u64 committed
  | .gossipRequest prepared committed => PackWriter.u64 prepared ++ PackWriter.u64 committed

def pack (body : Body) : List UInt8 := PackWriter.u8 body.discriminant ++ body.packFields

def Encodable : Body → Prop
  | .prepare entry committed => entry.Encodable ∧ committed < u64Bound
  | .prepareOk | .startViewChange | .plannedViewChange => True
  | .commit committed => committed < u64Bound
  | .doViewChange retained accepted committed suffix _ eraProof =>
    retained.Encodable ∧ accepted < u64Bound ∧ committed < u64Bound ∧ EntriesEncodable suffix ∧
      eraProof.Encodable
  | .startView suffix accepted committed eraProof =>
    EntriesEncodable suffix ∧ accepted < u64Bound ∧ committed < u64Bound ∧ eraProof.Encodable
  | .getState start => start < u64Bound
  | .newState entries through committed _ =>
    EntriesEncodable entries ∧ through < u64Bound ∧ committed < u64Bound
  | .reincarnation old new committed prepared =>
    old < u32Bound ∧ new < u32Bound ∧ committed < u64Bound ∧ prepared < u64Bound
  | .fuse ops => CountedEncodable SystemOperation.Encodable ops
  | .fuseOk acks => CountedEncodable (· < u64Bound) acks
  | .commitBatch committed => CountedEncodable (· < u64Bound) committed
  | .gossipRequest prepared committed => prepared < u64Bound ∧ committed < u64Bound

/-- The fields behind a discriminant. -/
def unpackFields (tag : Tag) : Unpack Body := fun c => do
  match tag with
  | .prepare =>
    let (entry, c) ← LogEntry.unpack c
    let (committed, c) ← UnpackCursor.u64 c
    return (.prepare entry committed, c)
  | .prepareOk => return (.prepareOk, c)
  | .commit =>
    let (committed, c) ← UnpackCursor.u64 c
    return (.commit committed, c)
  | .startViewChange => return (.startViewChange, c)
  | .doViewChange =>
    let (retained, c) ← Ballot.unpack c
    let (accepted, c) ← UnpackCursor.u64 c
    let (committed, c) ← UnpackCursor.u64 c
    let (suffix, c) ← unpackEntries c
    let (evidence, c) ← EvidenceKind.unpack c
    let (eraProof, c) ← EraProof.unpack c
    return (.doViewChange retained accepted committed suffix evidence eraProof, c)
  | .startView =>
    let (suffix, c) ← unpackEntries c
    let (accepted, c) ← UnpackCursor.u64 c
    let (committed, c) ← UnpackCursor.u64 c
    let (eraProof, c) ← EraProof.unpack c
    return (.startView suffix accepted committed eraProof, c)
  | .plannedViewChange => return (.plannedViewChange, c)
  | .getState =>
    let (start, c) ← UnpackCursor.u64 c
    return (.getState start, c)
  | .newState =>
    let (entries, c) ← unpackEntries c
    let (through, c) ← UnpackCursor.u64 c
    let (committed, c) ← UnpackCursor.u64 c
    let (more, c) ← UnpackCursor.bool c
    return (.newState entries through committed more, c)
  | .reincarnation =>
    let (old, c) ← UnpackCursor.u32 c
    let (new, c) ← UnpackCursor.u32 c
    let (committed, c) ← UnpackCursor.u64 c
    let (prepared, c) ← UnpackCursor.u64 c
    return (.reincarnation old new committed prepared, c)
  | .fuse =>
    let (ops, c) ← unpackCounted SystemOperation.unpack c
    return (.fuse ops, c)
  | .fuseOk =>
    let (acks, c) ← unpackCounted UnpackCursor.u64 c
    return (.fuseOk acks, c)
  | .commitBatch =>
    let (committed, c) ← unpackCounted UnpackCursor.u64 c
    return (.commitBatch committed, c)
  | .gossipRequest =>
    let (prepared, c) ← UnpackCursor.u64 c
    let (committed, c) ← UnpackCursor.u64 c
    return (.gossipRequest prepared committed, c)

/-- The discriminant is read first, so that an all-zero buffer fails before any field is. -/
def unpack : Unpack Body := fun c => do
  let (discriminant, c) ← UnpackCursor.u8 c
  match Tag.fromU32 discriminant with
  | some tag => unpackFields tag c
  | none => .error (.malformed .outOfDomain)

theorem unpackFields_valid {tag : Tag} {c c' : Cursor} {body : Body}
    (h : unpackFields tag c = .ok (body, c')) :
    body.tag = tag ∧ body.Encodable ∧ c.Spans body.packFields c' := by
  cases tag with
  | prepareOk | startViewChange | plannedViewChange =>
    cases h
    exact ⟨rfl, trivial, Cursor.spans_nil.mpr rfl⟩
  | prepare =>
    simp only [unpackFields, bind_eq_ok, Prod.exists, pure_eq_ok, Prod.mk.injEq,
      LogEntry.unpack_decodes _ _ _, UnpackCursor.u64_decodes _ _ _] at h
    obtain ⟨entry, _, ⟨hentry, h₁⟩, committed, _, ⟨hcommitted, h₂⟩, rfl, rfl⟩ := h
    exact ⟨rfl, ⟨hentry, hcommitted⟩, h₁.append h₂⟩
  | commit | getState =>
    simp only [unpackFields, bind_eq_ok, Prod.exists, pure_eq_ok, Prod.mk.injEq,
      UnpackCursor.u64_decodes _ _ _] at h
    obtain ⟨slot, _, ⟨hslot, h₁⟩, rfl, rfl⟩ := h
    exact ⟨rfl, hslot, h₁⟩
  | doViewChange =>
    simp only [unpackFields, bind_eq_ok, Prod.exists, pure_eq_ok, Prod.mk.injEq,
      Ballot.unpack_decodes _ _ _, UnpackCursor.u64_decodes _ _ _, unpackEntries_decodes _ _ _,
      EvidenceKind.unpack_decodes _ _ _, EraProof.unpack_decodes _ _ _, true_and] at h
    obtain ⟨retained, _, ⟨hretained, h₁⟩, accepted, _, ⟨haccepted, h₂⟩, committed, _,
      ⟨hcommitted, h₃⟩, suffix, _, ⟨hsuffix, h₄⟩, evidence, _, h₅, eraProof, _, ⟨hproof, h₆⟩,
      rfl, rfl⟩ := h
    exact ⟨rfl, ⟨hretained, haccepted, hcommitted, hsuffix, hproof⟩,
      h₁.append (h₂.append (h₃.append (h₄.append (h₅.append h₆))))⟩
  | startView =>
    simp only [unpackFields, bind_eq_ok, Prod.exists, pure_eq_ok, Prod.mk.injEq,
      unpackEntries_decodes _ _ _, UnpackCursor.u64_decodes _ _ _,
      EraProof.unpack_decodes _ _ _] at h
    obtain ⟨suffix, _, ⟨hsuffix, h₁⟩, accepted, _, ⟨haccepted, h₂⟩, committed, _,
      ⟨hcommitted, h₃⟩, eraProof, _, ⟨hproof, h₄⟩, rfl, rfl⟩ := h
    exact ⟨rfl, ⟨hsuffix, haccepted, hcommitted, hproof⟩,
      h₁.append (h₂.append (h₃.append h₄))⟩
  | newState =>
    simp only [unpackFields, bind_eq_ok, Prod.exists, pure_eq_ok, Prod.mk.injEq,
      unpackEntries_decodes _ _ _, UnpackCursor.u64_decodes _ _ _,
      UnpackCursor.bool_decodes _ _ _, true_and] at h
    obtain ⟨entries, _, ⟨hentries, h₁⟩, through, _, ⟨hthrough, h₂⟩, committed, _,
      ⟨hcommitted, h₃⟩, more, _, h₄, rfl, rfl⟩ := h
    exact ⟨rfl, ⟨hentries, hthrough, hcommitted⟩, h₁.append (h₂.append (h₃.append h₄))⟩
  | reincarnation =>
    simp only [unpackFields, bind_eq_ok, Prod.exists, pure_eq_ok, Prod.mk.injEq,
      UnpackCursor.u32_decodes _ _ _, UnpackCursor.u64_decodes _ _ _] at h
    obtain ⟨old, _, ⟨hold, h₁⟩, new, _, ⟨hnew, h₂⟩, committed, _, ⟨hcommitted, h₃⟩, prepared, _,
      ⟨hprepared, h₄⟩, rfl, rfl⟩ := h
    exact ⟨rfl, ⟨hold, hnew, hcommitted, hprepared⟩, h₁.append (h₂.append (h₃.append h₄))⟩
  | fuse =>
    simp only [unpackFields, bind_eq_ok, Prod.exists, pure_eq_ok, Prod.mk.injEq,
      unpackCounted_decodes SystemOperation.unpack_decodes _ _ _] at h
    obtain ⟨ops, _, ⟨hops, h₁⟩, rfl, rfl⟩ := h
    exact ⟨rfl, hops, h₁⟩
  | fuseOk | commitBatch =>
    simp only [unpackFields, bind_eq_ok, Prod.exists, pure_eq_ok, Prod.mk.injEq,
      unpackCounted_decodes UnpackCursor.u64_decodes _ _ _] at h
    obtain ⟨slots, _, ⟨hslots, h₁⟩, rfl, rfl⟩ := h
    exact ⟨rfl, hslots, h₁⟩
  | gossipRequest =>
    simp only [unpackFields, bind_eq_ok, Prod.exists, pure_eq_ok, Prod.mk.injEq,
      UnpackCursor.u64_decodes _ _ _] at h
    obtain ⟨prepared, _, ⟨hprepared, h₁⟩, committed, _, ⟨hcommitted, h₂⟩, rfl, rfl⟩ := h
    exact ⟨rfl, ⟨hprepared, hcommitted⟩, h₁.append h₂⟩

theorem unpackFields_packFields {c c' : Cursor} {body : Body} (hvalid : body.Encodable)
    (hspan : c.Spans body.packFields c') : unpackFields body.tag c = .ok (body, c') := by
  unfold packFields at hspan
  cases body with
  | prepareOk | startViewChange | plannedViewChange =>
    obtain rfl := Cursor.spans_nil.mp hspan
    rfl
  | prepare entry committed =>
    obtain ⟨c₁, h₁, h₂⟩ := Cursor.spans_append.mp hspan
    simp only [tag, unpackFields, bind_eq_ok, Prod.exists, pure_eq_ok, Prod.mk.injEq,
      LogEntry.unpack_decodes _ _ _, UnpackCursor.u64_decodes _ _ _]
    exact ⟨entry, c₁, ⟨hvalid.1, h₁⟩, committed, c', ⟨hvalid.2, h₂⟩, rfl, rfl⟩
  | commit slot | getState slot =>
    simp only [tag, unpackFields, bind_eq_ok, Prod.exists, pure_eq_ok, Prod.mk.injEq,
      UnpackCursor.u64_decodes _ _ _]
    exact ⟨slot, c', ⟨hvalid, hspan⟩, rfl, rfl⟩
  | doViewChange retained accepted committed suffix evidence eraProof =>
    obtain ⟨hretained, haccepted, hcommitted, hsuffix, hproof⟩ := hvalid
    obtain ⟨c₁, h₁, hspan⟩ := Cursor.spans_append.mp hspan
    obtain ⟨c₂, h₂, hspan⟩ := Cursor.spans_append.mp hspan
    obtain ⟨c₃, h₃, hspan⟩ := Cursor.spans_append.mp hspan
    obtain ⟨c₄, h₄, hspan⟩ := Cursor.spans_append.mp hspan
    obtain ⟨c₅, h₅, h₆⟩ := Cursor.spans_append.mp hspan
    simp only [tag, unpackFields, bind_eq_ok, Prod.exists, pure_eq_ok, Prod.mk.injEq,
      Ballot.unpack_decodes _ _ _, UnpackCursor.u64_decodes _ _ _, unpackEntries_decodes _ _ _,
      EvidenceKind.unpack_decodes _ _ _, EraProof.unpack_decodes _ _ _, true_and]
    exact ⟨retained, c₁, ⟨hretained, h₁⟩, accepted, c₂, ⟨haccepted, h₂⟩, committed, c₃,
      ⟨hcommitted, h₃⟩, suffix, c₄, ⟨hsuffix, h₄⟩, evidence, c₅, h₅, eraProof, c', ⟨hproof, h₆⟩,
      rfl, rfl⟩
  | startView suffix accepted committed eraProof =>
    obtain ⟨hsuffix, haccepted, hcommitted, hproof⟩ := hvalid
    obtain ⟨c₁, h₁, hspan⟩ := Cursor.spans_append.mp hspan
    obtain ⟨c₂, h₂, hspan⟩ := Cursor.spans_append.mp hspan
    obtain ⟨c₃, h₃, h₄⟩ := Cursor.spans_append.mp hspan
    simp only [tag, unpackFields, bind_eq_ok, Prod.exists, pure_eq_ok, Prod.mk.injEq,
      unpackEntries_decodes _ _ _, UnpackCursor.u64_decodes _ _ _,
      EraProof.unpack_decodes _ _ _]
    exact ⟨suffix, c₁, ⟨hsuffix, h₁⟩, accepted, c₂, ⟨haccepted, h₂⟩, committed, c₃,
      ⟨hcommitted, h₃⟩, eraProof, c', ⟨hproof, h₄⟩, rfl, rfl⟩
  | newState entries through committed more =>
    obtain ⟨hentries, hthrough, hcommitted⟩ := hvalid
    obtain ⟨c₁, h₁, hspan⟩ := Cursor.spans_append.mp hspan
    obtain ⟨c₂, h₂, hspan⟩ := Cursor.spans_append.mp hspan
    obtain ⟨c₃, h₃, h₄⟩ := Cursor.spans_append.mp hspan
    simp only [tag, unpackFields, bind_eq_ok, Prod.exists, pure_eq_ok, Prod.mk.injEq,
      unpackEntries_decodes _ _ _, UnpackCursor.u64_decodes _ _ _,
      UnpackCursor.bool_decodes _ _ _, true_and]
    exact ⟨entries, c₁, ⟨hentries, h₁⟩, through, c₂, ⟨hthrough, h₂⟩, committed, c₃,
      ⟨hcommitted, h₃⟩, more, c', h₄, rfl, rfl⟩
  | reincarnation old new committed prepared =>
    obtain ⟨hold, hnew, hcommitted, hprepared⟩ := hvalid
    obtain ⟨c₁, h₁, hspan⟩ := Cursor.spans_append.mp hspan
    obtain ⟨c₂, h₂, hspan⟩ := Cursor.spans_append.mp hspan
    obtain ⟨c₃, h₃, h₄⟩ := Cursor.spans_append.mp hspan
    simp only [tag, unpackFields, bind_eq_ok, Prod.exists, pure_eq_ok, Prod.mk.injEq,
      UnpackCursor.u32_decodes _ _ _, UnpackCursor.u64_decodes _ _ _]
    exact ⟨old, c₁, ⟨hold, h₁⟩, new, c₂, ⟨hnew, h₂⟩, committed, c₃, ⟨hcommitted, h₃⟩, prepared, c',
      ⟨hprepared, h₄⟩, rfl, rfl⟩
  | fuse ops =>
    simp only [tag, unpackFields, bind_eq_ok, Prod.exists, pure_eq_ok, Prod.mk.injEq,
      unpackCounted_decodes SystemOperation.unpack_decodes _ _ _]
    exact ⟨ops, c', ⟨hvalid, hspan⟩, rfl, rfl⟩
  | fuseOk slots | commitBatch slots =>
    simp only [tag, unpackFields, bind_eq_ok, Prod.exists, pure_eq_ok, Prod.mk.injEq,
      unpackCounted_decodes UnpackCursor.u64_decodes _ _ _]
    exact ⟨slots, c', ⟨hvalid, hspan⟩, rfl, rfl⟩
  | gossipRequest prepared committed =>
    obtain ⟨c₁, h₁, h₂⟩ := Cursor.spans_append.mp hspan
    simp only [tag, unpackFields, bind_eq_ok, Prod.exists, pure_eq_ok, Prod.mk.injEq,
      UnpackCursor.u64_decodes _ _ _]
    exact ⟨prepared, c₁, ⟨hvalid.1, h₁⟩, committed, c', ⟨hvalid.2, h₂⟩, rfl, rfl⟩

theorem unpack_decodes : Decodes unpack pack Encodable := by
  intro c body c'
  unfold unpack pack
  simp only [bind_eq_ok, Prod.exists, UnpackCursor.u8_decodes c, Cursor.spans_append]
  constructor
  · rintro ⟨kind, c₁, ⟨-, hfront⟩, hok⟩
    split at hok
    · rename_i tag htag
      obtain ⟨rfl, hvalid, hback⟩ := unpackFields_valid hok
      obtain rfl := Tag.fromU32_eq_some.mp htag
      exact ⟨hvalid, c₁, hfront, hback⟩
    · cases hok
  · rintro ⟨hvalid, c₁, hfront, hback⟩
    refine ⟨body.discriminant, c₁, ⟨body.tag.asU32_lt, hfront⟩, ?_⟩
    rw [discriminant, Tag.fromU32_eq_some.mpr rfl]
    exact unpackFields_packFields hvalid hback

theorem pack_length (body : Body) : body.pack.length = body.packedLen := by
  have hslots : ∀ slot, (PackWriter.u64 slot).length = 8 := fun slot => beBytes_length 8 slot
  cases body with
  | fuse ops =>
    have hops := packCounted_length SystemOperation.pack_length ops
    simp [pack, packedLen, packFields, PackWriter.u8, hops]
  | fuseOk slots | commitBatch slots =>
    have hcounted := packCounted_length hslots slots
    simp [pack, packedLen, packFields, PackWriter.u8, hcounted]
  | doViewChange retained accepted committed suffix evidence eraProof =>
    have hevidence : evidence.pack.length = 1 := by cases evidence <;> rfl
    simp [pack, packedLen, packFields, PackWriter.u8, hslots, packEntries_length, hevidence,
      Ballot.pack, Ballot.packedLen, PackWriter.u32, EvidenceKind.packedLen, EraProof.pack,
      EraProof.packedLen, SystemOperation.pack_length]
    omega
  | _ =>
    simp [pack, packedLen, packFields, PackWriter.u8, PackWriter.u32, PackWriter.bool, hslots,
      packEntries_length, LogEntry.pack_length, EraProof.pack, EraProof.packedLen,
      SystemOperation.pack_length]
    try omega

end Body

/-! ### Messages -/

/-- A message as it stands on the wire: the kind in the header and in the body. -/
structure WireMessage where
  header : WireHeader
  body : Body
deriving DecidableEq, Repr

namespace WireMessage

def packedLen (message : WireMessage) : Nat := message.header.packedLen + message.body.packedLen

def pack (message : WireMessage) : List UInt8 := message.header.pack ++ message.body.pack

/-- The fields are as wide as their types, the counts fit, and the two kinds agree. -/
def Encodable (message : WireMessage) : Prop :=
  message.header.Encodable ∧ message.body.Encodable ∧ message.header.tag = message.body.tag

def unpack : Unpack WireMessage := fun c => do
  let (header, c) ← WireHeader.unpack c
  let (body, c) ← Body.unpack c
  if body.tag ≠ header.tag then .error (.malformed .outOfDomain)
  return (⟨header, body⟩, c)

theorem unpack_decodes : Decodes unpack pack Encodable := by
  intro c message c'
  unfold unpack pack Encodable
  simp only [bind_eq_ok, Prod.exists, WireHeader.unpack_decodes _ _ _, Body.unpack_decodes _ _ _,
    Cursor.spans_append]
  constructor
  · rintro ⟨header, c₁, ⟨hheader, h₁⟩, body, c₂, ⟨hbody, h₂⟩, hok⟩
    split at hok
    · cases hok
    · rename_i htag
      cases pure_eq_ok.mp hok
      exact ⟨⟨hheader, hbody, (not_not.mp htag).symm⟩, c₁, h₁, h₂⟩
  · rintro ⟨⟨hheader, hbody, htag⟩, c₁, h₁, h₂⟩
    refine ⟨message.header, c₁, ⟨hheader, h₁⟩, message.body, c', ⟨hbody, h₂⟩, ?_⟩
    rw [if_neg (not_not.mpr htag.symm)]
    rfl

theorem pack_length (message : WireMessage) : message.pack.length = message.packedLen := by
  rw [pack, List.length_append, WireHeader.pack_length, Body.pack_length, packedLen]

end WireMessage

/-- An exact length is what `packInto` asks for, so it never runs off the buffer. -/
theorem packInto_of_length {packed : List UInt8} {needed : Nat} (h : packed.length = needed)
    {buf : List UInt8} (hroom : needed ≤ buf.length) :
    packInto packed needed buf = some (.ok (needed, packed ++ buf.drop needed)) := by
  rw [packInto, if_neg (Nat.not_lt.mpr hroom), if_neg (Nat.not_lt.mpr (h ▸ hroom)), h]

/-- A pair accepts a whole buffer exactly if the buffer is the encoding of what it reads. -/
theorem unpackFrom_eq_ok {α : Type} {unpack : Unpack α} {pack : α → List UInt8}
    {valid : α → Prop} (h : Decodes unpack pack valid) {buf : Slice} {a : α} :
    unpackFrom unpack buf = .ok a ↔ valid a ∧ buf.bytes = pack a := by
  simp only [unpackFrom, bind_eq_ok, Prod.exists, h _ _ _, pure_eq_ok]
  constructor
  · rintro ⟨a', c, ⟨hvalid, hspan⟩, ⟨⟩, hfinish, rfl⟩
    have hremaining : c.remaining = 0 := by
      unfold UnpackCursor.finish at hfinish
      split at hfinish
      · assumption
      · cases hfinish
    have hrest : c.rest = [] := List.length_eq_zero_iff.mp (c.rest_length.trans hremaining)
    have hbytes := hspan.rest
    rw [Cursor.start_rest, hrest, List.append_nil] at hbytes
    exact ⟨hvalid, hbytes⟩
  · rintro ⟨hvalid, hbytes⟩
    have hfront : (Cursor.start buf).rest = pack a ++ [] := by
      rw [Cursor.start_rest, hbytes, List.append_nil]
    obtain ⟨c, hspan, hrest⟩ := Cursor.exists_spans hfront
    refine ⟨a, c, ⟨hvalid, hspan⟩, (), ?_, rfl⟩
    have hremaining : c.remaining = 0 := by rw [← c.rest_length, hrest, List.length_nil]
    rw [UnpackCursor.finish, if_pos hremaining]

/-- **The wire format is a canonical bijection.** A valid message packs to its packed length into
every buffer with room. It is what a decoder reads of its bytes alone, and what it reads in front
of any others, stopping right after. And a byte string that decodes is the packing of a valid
message, the one it decodes to. -/
theorem wire_canonical :
    (∀ message : WireMessage, message.Encodable →
      (∀ buf : List UInt8, message.packedLen ≤ buf.length →
        packInto message.pack message.packedLen buf =
          some (.ok (message.packedLen, message.pack ++ buf.drop message.packedLen))) ∧
      (∀ buf : Slice, buf.bytes = message.pack →
        unpackFrom WireMessage.unpack buf = .ok message) ∧
      ∀ (c : Cursor) (rest : List UInt8), c.rest = message.pack ++ rest →
        ∃ c', WireMessage.unpack c = .ok (message, c') ∧ c'.buf = c.buf ∧
          c'.pos = c.pos + message.packedLen ∧ c'.rest = rest) ∧
    ∀ (buf : Slice) (message : WireMessage), unpackFrom WireMessage.unpack buf = .ok message →
      message.Encodable ∧ message.pack = buf.bytes := by
  refine ⟨fun message hvalid => ⟨?_, ?_, ?_⟩, fun buf message hok => ?_⟩
  · exact fun buf => packInto_of_length message.pack_length
  · exact fun buf hbytes => (unpackFrom_eq_ok WireMessage.unpack_decodes).mpr ⟨hvalid, hbytes⟩
  · intro c rest hrest
    obtain ⟨c', hspan, hafter⟩ := Cursor.exists_spans hrest
    have hok := (WireMessage.unpack_decodes c message c').mpr ⟨hvalid, hspan⟩
    refine ⟨c', hok, hspan.buf, ?_, hafter⟩
    rw [hspan.pos, message.pack_length]
  · obtain ⟨hvalid, hbytes⟩ := (unpackFrom_eq_ok WireMessage.unpack_decodes).mp hok
    exact ⟨hvalid, hbytes.symm⟩

/-- A slab of a batch in a batch, behind one byte and in front of another. -/
theorem wire_canonical_nested :
    let message : WireMessage :=
      ⟨⟨.fuse, ⟨1, 2⟩, 3⟩, .fuse [.batch [.increment 4, .batch [.double, .init [5, 6]]]]⟩
    let buf : Slice := ⟨[7] ++ message.pack ++ [8], by decide⟩
    ∃ c, WireMessage.unpack ⟨buf, 1, by decide⟩ = .ok (message, c) ∧ c.pos = 55 ∧ c.rest = [8] := by
  intro message buf
  have hvalid : message.Encodable := by
    refine ⟨⟨⟨by decide, by decide⟩, by decide⟩, ⟨by decide, by decide, ?_⟩, rfl⟩
    intro op hop
    rw [List.mem_singleton.mp hop]
    simp only [SystemOperation.Encodable, SystemOperation.AllEncodable]
    decide
  obtain ⟨c, hok, -, hpos, hrest⟩ :=
    (wire_canonical.1 message hvalid).2.2 ⟨buf, 1, by decide⟩ [8] rfl
  exact ⟨c, hok, hpos, hrest⟩

end UvrrCore
