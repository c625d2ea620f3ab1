import Mathlib.Algebra.Order.BigOperators.Group.Finset
import Mathlib.Data.List.Basic
import Mathlib.Tactic.Ring

/-!
# Byte codecs

Fixed-width integers, slices, and cursors over them. What a decoder says of its value is a fact
about two cursors: `c.Spans bytes c'` when `c'` is `c` moved over exactly these bytes. A decoder
and an encoder are a pair when the decoder answers `v` and `c'` exactly if `v` is valid and its
encoding spans `c` and `c'` (`Decodes`): that is the round trip and its converse in one.

* `Cursor.spans_append` takes such facts apart field by field.
* `Decodes.many` is the rule of counted sequences, within a bound on what is left to read, so that
  it also serves decoders that recurse on it.
* `Framed` says moreover what a decoder makes of an input that stops inside the encoding of a valid
  value: it asks for more than there is, and for nothing behind that encoding. `Framed.bind` is the
  rule of a field and what follows it, `FramedWithin.many` the one of sequences.
-/

namespace ByteCodec

/-! ### Integers, most significant byte first -/

def beBytes : (width : Nat) → (value : Nat) → List UInt8
  | 0, _ => []
  | width + 1, value => beBytes width (value / 256) ++ [UInt8.ofNat (value % 256)]

def beValue (bytes : List UInt8) : Nat :=
  bytes.foldl (fun value byte => value * 256 + byte.toNat) 0

@[simp] theorem beBytes_length (width value : Nat) : (beBytes width value).length = width := by
  induction width generalizing value with
  | zero => rfl
  | succ width ih => rw [beBytes, List.length_append, ih, List.length_singleton]

theorem beValue_concat (bytes : List UInt8) (byte : UInt8) :
    beValue (bytes ++ [byte]) = beValue bytes * 256 + byte.toNat := by
  unfold beValue
  rw [List.foldl_append]
  rfl

theorem beValue_lt (bytes : List UInt8) : beValue bytes < 256 ^ bytes.length := by
  induction bytes using List.reverseRecOn with
  | nil => exact Nat.one_pos
  | append_singleton bytes byte ih =>
    have hbyte := byte.toNat_lt
    rw [beValue_concat, List.length_append, List.length_singleton, pow_succ]
    omega

theorem beValue_beBytes {width value : Nat} (h : value < 256 ^ width) :
    beValue (beBytes width value) = value := by
  induction width generalizing value with
  | zero =>
    rw [pow_zero, Nat.lt_one_iff] at h
    rw [h]
    rfl
  | succ width ih =>
    rw [pow_succ] at h
    have hbyte : (UInt8.ofNat (value % 256)).toNat = value % 256 :=
      UInt8.toNat_ofNat_of_lt (Nat.mod_lt _ (by decide))
    rw [beBytes, beValue_concat, ih (Nat.div_lt_of_lt_mul (by rwa [Nat.mul_comm] at h)), hbyte]
    omega

theorem beBytes_beValue {width : Nat} {bytes : List UInt8} (h : bytes.length = width) :
    beBytes width (beValue bytes) = bytes := by
  induction width generalizing bytes with
  | zero =>
    rw [List.length_eq_zero_iff.mp h]
    rfl
  | succ width ih =>
    rcases List.eq_nil_or_concat' bytes with rfl | ⟨front, byte, rfl⟩
    · cases h
    · have hfront : front.length = width := by
        rw [List.length_append, List.length_singleton] at h
        omega
      have hbyte := byte.toNat_lt
      have hdiv : (beValue front * 256 + byte.toNat) / 256 = beValue front := by omega
      have hmod : (beValue front * 256 + byte.toNat) % 256 = byte.toNat := by omega
      rw [beValue_concat, beBytes, hdiv, hmod, ih hfront, UInt8.ofNat_toNat]

/-! ### Slices and cursors -/

/-- The first number no slice is as long as: no allocation exceeds `isize::MAX` bytes. -/
abbrev sliceBound : Nat := 9223372036854775808

structure Slice where
  bytes : List UInt8
  sized : bytes.length < sliceBound

/-- A slice and how far it was read. -/
structure Cursor where
  buf : Slice
  pos : Nat
  within : pos ≤ buf.bytes.length

namespace Cursor

def start (buf : Slice) : Cursor := ⟨buf, 0, Nat.zero_le _⟩

/-- The number of bytes not read yet. -/
def remaining (c : Cursor) : Nat := c.buf.bytes.length - c.pos

/-- The bytes not read yet. -/
def rest (c : Cursor) : List UInt8 := c.buf.bytes.drop c.pos

/-- The cursor so many bytes further. -/
def advance (c : Cursor) (n : Nat) (h : c.pos + n ≤ c.buf.bytes.length) : Cursor := ⟨c.buf, _, h⟩

/-- **A cursor moved over bytes.** -/
structure Spans (c : Cursor) (bytes : List UInt8) (c' : Cursor) : Prop where
  buf : c'.buf = c.buf
  rest : c.rest = bytes ++ c'.rest

variable {c c' c'' : Cursor} {bytes : List UInt8}

theorem rest_length (c : Cursor) : c.rest.length = c.remaining := List.length_drop

theorem start_rest (buf : Slice) : (start buf).rest = buf.bytes := rfl

theorem Spans.remaining (h : c.Spans bytes c') : c.remaining = bytes.length + c'.remaining := by
  rw [← rest_length, ← rest_length, h.rest, List.length_append]

theorem Spans.pos (h : c.Spans bytes c') : c'.pos = c.pos + bytes.length := by
  have hlength := h.remaining
  have hwithin := c.within
  have hwithin' := c'.within
  unfold Cursor.remaining at hlength
  rw [h.buf] at hlength hwithin'
  omega

/-- The bytes say where the cursor stops. -/
theorem Spans.unique (h : c.Spans bytes c') (h' : c.Spans bytes c'') : c' = c'' := by
  have hpos : c'.pos = c''.pos := h.pos.trans h'.pos.symm
  have hbuf : c'.buf = c''.buf := h.buf.trans h'.buf.symm
  cases c'
  cases c''
  cases hpos
  cases hbuf
  rfl

theorem spans_nil : c.Spans [] c' ↔ c = c' := by
  have hself : c.Spans [] c := ⟨rfl, rfl⟩
  exact ⟨fun h => hself.unique h, fun h => h ▸ hself⟩

theorem advance_spans {n : Nat} (h : c.pos + n ≤ c.buf.bytes.length) :
    c.Spans (c.rest.take n) (c.advance n h) := by
  refine ⟨rfl, ?_⟩
  unfold rest advance
  rw [← List.drop_drop, List.take_append_drop]

/-- A cursor in front of bytes can be moved over them. -/
theorem exists_spans {rest : List UInt8} (h : c.rest = bytes ++ rest) :
    ∃ c', c.Spans bytes c' ∧ c'.rest = rest := by
  have hlength := c.rest_length
  have hwithin := c.within
  rw [h, List.length_append] at hlength
  unfold remaining at hlength
  have hspan := advance_spans (show c.pos + bytes.length ≤ c.buf.bytes.length by omega)
  rw [h, List.take_left] at hspan
  exact ⟨_, hspan, List.append_cancel_left (hspan.rest.symm.trans h)⟩

/-- **Moving over one field and then the other.** -/
theorem spans_append {front back : List UInt8} :
    c.Spans (front ++ back) c'' ↔ ∃ c', c.Spans front c' ∧ c'.Spans back c'' := by
  constructor
  · intro h
    obtain ⟨c', hfront, hrest⟩ := exists_spans (h.rest.trans (List.append_assoc _ _ _))
    exact ⟨c', hfront, h.buf.trans hfront.buf.symm, hrest⟩
  · rintro ⟨c', hfront, hback⟩
    exact ⟨hback.buf.trans hfront.buf, by rw [hfront.rest, hback.rest, List.append_assoc]⟩

theorem Spans.append {front back : List UInt8} (h : c.Spans front c') (h' : c'.Spans back c'') :
    c.Spans (front ++ back) c'' := spans_append.mpr ⟨c', h, h'⟩

end Cursor

/-! ### Decoders -/

variable {ε α β : Type}

/-- A decoder: the value read and the cursor behind it, or a refusal. -/
abbrev Get (ε α : Type) := Cursor → Except ε (α × Cursor)

/-- **A decoder and an encoder are a pair** on what is no longer than a bound: the decoder answers
exactly the valid values, and each where its encoding stands. -/
def DecodesWithin (bound : Nat) (get : Get ε α) (encode : α → List UInt8) (valid : α → Prop) :
    Prop :=
  ∀ c, c.remaining ≤ bound → ∀ a c', get c = .ok (a, c') ↔ valid a ∧ c.Spans (encode a) c'

def Decodes (get : Get ε α) (encode : α → List UInt8) (valid : α → Prop) : Prop :=
  ∀ c a c', get c = .ok (a, c') ↔ valid a ∧ c.Spans (encode a) c'

theorem Decodes.within {get : Get ε α} {encode : α → List UInt8} {valid : α → Prop}
    (h : Decodes get encode valid) (bound : Nat) : DecodesWithin bound get encode valid :=
  fun c _ => h c

theorem decodes_of_within {get : Get ε α} {encode : α → List UInt8} {valid : α → Prop}
    (h : ∀ bound, DecodesWithin bound get encode valid) : Decodes get encode valid :=
  fun c => h c.remaining c (Nat.le_refl _)

/-- So many values, one after the other. -/
def many (get : Get ε α) : (count : Nat) → Get ε (List α)
  | 0, c => .ok ([], c)
  | count + 1, c =>
    match get c with
    | .error error => .error error
    | .ok (a, c) =>
      match many get count c with
      | .error error => .error error
      | .ok (as, c) => .ok (a :: as, c)

/-- **The rule of sequences.** -/
theorem DecodesWithin.many {bound : Nat} {get : Get ε α} {encode : α → List UInt8}
    {valid : α → Prop} (h : DecodesWithin bound get encode valid) (count : Nat) :
    DecodesWithin bound (many get count) (fun as => as.flatMap encode)
      fun as => as.length = count ∧ ∀ a ∈ as, valid a := by
  induction count with
  | zero =>
    intro c _ as c'
    constructor
    · intro hok
      cases hok
      exact ⟨⟨rfl, fun a hmem => absurd hmem List.not_mem_nil⟩, Cursor.spans_nil.mpr rfl⟩
    · rintro ⟨⟨hlength, -⟩, hspan⟩
      obtain rfl := List.length_eq_zero_iff.mp hlength
      obtain rfl := Cursor.spans_nil.mp hspan
      rfl
  | succ count ih =>
    intro c hbound as c''
    unfold ByteCodec.many
    constructor
    · intro hok
      cases hget : get c with
      | error error =>
        rw [hget] at hok
        cases hok
      | ok read =>
        obtain ⟨a, c'⟩ := read
        obtain ⟨hvalid, hspan⟩ := (h c hbound a c').mp hget
        have hbound' : c'.remaining ≤ bound := by
          have := hspan.remaining
          omega
        rw [hget] at hok
        simp only at hok
        cases hmany : ByteCodec.many get count c' with
        | error error =>
          rw [hmany] at hok
          cases hok
        | ok read =>
          obtain ⟨as', c'''⟩ := read
          obtain ⟨⟨hlength, hall⟩, hspan'⟩ := (ih c' hbound' as' c''').mp hmany
          rw [hmany] at hok
          cases hok
          refine ⟨⟨by rw [List.length_cons, hlength], ?_⟩, hspan.append hspan'⟩
          exact List.forall_mem_cons.mpr ⟨hvalid, hall⟩
    · rintro ⟨⟨hlength, hall⟩, hspan⟩
      cases as with
      | nil => cases hlength
      | cons a as =>
        obtain ⟨hvalid, hall⟩ := List.forall_mem_cons.mp hall
        obtain ⟨c', hfront, hback⟩ := Cursor.spans_append.mp hspan
        have hbound' : c'.remaining ≤ bound := by
          have := hfront.remaining
          omega
        rw [(h c hbound a c').mpr ⟨hvalid, hfront⟩]
        simp only
        rw [(ih c' hbound' as c'').mpr ⟨⟨Nat.succ.inj hlength, hall⟩, hback⟩]

theorem Decodes.many {get : Get ε α} {encode : α → List UInt8} {valid : α → Prop}
    (h : Decodes get encode valid) (count : Nat) :
    Decodes (ByteCodec.many get count) (fun as => as.flatMap encode)
      fun as => as.length = count ∧ ∀ a ∈ as, valid a :=
  decodes_of_within fun bound => (h.within bound).many count

theorem many_succ (get : Get ε α) (count : Nat) (c : Cursor) :
    many get (count + 1) c = get c >>= fun read => many get count read.2 >>= fun reads =>
      .ok (read.1 :: reads.1, reads.2) := by
  cases hget : get c with
  | error error => simp only [many, hget, bind, Except.bind]
  | ok read =>
    cases hmany : many get count read.2 with
    | error error => simp only [many, hget, hmany, bind, Except.bind]
    | ok reads => simp only [many, hget, hmany, bind, Except.bind]

/-! ### Inputs cut short -/

namespace Cursor

variable {c : Cursor} {front back : List UInt8}

/-- **The input stops inside these bytes.** -/
def Lacks (c : Cursor) (bytes : List UInt8) : Prop :=
  ∃ missing, missing ≠ [] ∧ bytes = c.rest ++ missing

theorem not_lacks_nil (c : Cursor) : ¬c.Lacks [] := by
  intro h
  obtain ⟨missing, hne, heq⟩ := h
  exact hne (List.append_eq_nil_iff.mp heq.symm).2

theorem Lacks.remaining_lt (h : c.Lacks front) : c.remaining < front.length := by
  obtain ⟨missing, hne, heq⟩ := h
  have hpos := List.length_pos_of_ne_nil hne
  rw [heq, List.length_append, c.rest_length]
  omega

/-- It stops in the first field or, behind that, in what follows. -/
theorem Lacks.append (h : c.Lacks (front ++ back)) :
    c.Lacks front ∨ ∃ c', c.Spans front c' ∧ c'.Lacks back := by
  obtain ⟨missing, hne, heq⟩ := h
  rcases List.append_eq_append_iff.mp heq with ⟨part, hrest, hback⟩ | ⟨part, hfront, hmissing⟩
  · obtain ⟨c', hspan, hpart⟩ := exists_spans hrest
    exact Or.inr ⟨c', hspan, missing, hne, by rw [hpart, hback]⟩
  · by_cases hpart : part = []
    · rw [hpart, List.append_nil] at hfront
      rw [hpart, List.nil_append] at hmissing
      obtain ⟨c', hspan, hnil⟩ :=
        exists_spans (show c.rest = front ++ [] by rw [hfront, List.append_nil])
      exact Or.inr ⟨c', hspan, missing, hne, by rw [hnil, List.nil_append, hmissing]⟩
    · exact Or.inl ⟨part, hpart, hfront⟩

end Cursor

section

variable {short : Nat → ε}

/-- **A decoder run dry**: the input length it asks for is more than there is, and no more than
the bytes it was reading take. -/
def RunsDry (short : Nat → ε) (result : Except ε α) (c : Cursor) (bytes : List UInt8) : Prop :=
  ∃ needed, result = .error (short needed) ∧ c.buf.bytes.length < needed ∧
    needed ≤ c.pos + bytes.length

theorem RunsDry.bind {result : Except ε α} {c : Cursor} {bytes : List UInt8}
    (h : RunsDry short result c bytes) (next : α → Except ε β) :
    RunsDry short (result >>= next) c bytes := by
  obtain ⟨needed, hresult, hbounds⟩ := h
  exact ⟨needed, by rw [hresult]; rfl, hbounds⟩

theorem RunsDry.append {result : Except ε α} {c : Cursor} {front : List UInt8}
    (h : RunsDry short result c front) (back : List UInt8) :
    RunsDry short result c (front ++ back) := by
  obtain ⟨needed, hresult, hlt, hle⟩ := h
  refine ⟨needed, hresult, hlt, ?_⟩
  rw [List.length_append]
  omega

theorem RunsDry.behind {result : Except ε α} {c c' : Cursor} {front back : List UInt8}
    (hspan : c.Spans front c') (h : RunsDry short result c' back) :
    RunsDry short result c (front ++ back) := by
  obtain ⟨needed, hresult, hlt, hle⟩ := h
  rw [hspan.buf] at hlt
  rw [hspan.pos] at hle
  refine ⟨needed, hresult, hlt, ?_⟩
  rw [List.length_append]
  omega

/-- **A decoder with its encoder, on whole inputs and on inputs cut short**, within a bound on
what is left to read. -/
structure FramedWithin (short : Nat → ε) (bound : Nat) (get : Get ε α) (encode : α → List UInt8)
    (valid : α → Prop) : Prop where
  decodes : DecodesWithin bound get encode valid
  dry : ∀ c, c.remaining ≤ bound → ∀ a, valid a → c.Lacks (encode a) →
    RunsDry short (get c) c (encode a)

def Framed (short : Nat → ε) (get : Get ε α) (encode : α → List UInt8) (valid : α → Prop) : Prop :=
  ∀ bound, FramedWithin short bound get encode valid

variable {bound : Nat} {get : Get ε α} {encode : α → List UInt8} {valid : α → Prop}

theorem framed_of_decodes (h : Decodes get encode valid)
    (hdry : ∀ c a, valid a → c.Lacks (encode a) → RunsDry short (get c) c (encode a)) :
    Framed short get encode valid :=
  fun bound => ⟨h.within bound, fun c _ => hdry c⟩

theorem Framed.dry (h : Framed short get encode valid) {c : Cursor} {a : α} (ha : valid a)
    (hlacks : c.Lacks (encode a)) : RunsDry short (get c) c (encode a) :=
  (h c.remaining).dry c (Nat.le_refl _) a ha hlacks

/-- **A field and what follows it.** -/
theorem FramedWithin.bind (h : FramedWithin short bound get encode valid) {c : Cursor}
    (hbound : c.remaining ≤ bound) {a : α} (ha : valid a) {back : List UInt8}
    (hlacks : c.Lacks (encode a ++ back)) {next : α × Cursor → Except ε β}
    (hnext : ∀ c', c.Spans (encode a) c' → c'.Lacks back → RunsDry short (next (a, c')) c' back) :
    RunsDry short (get c >>= next) c (encode a ++ back) := by
  rcases hlacks.append with hfront | ⟨c', hspan, hback⟩
  · exact ((h.dry c hbound a ha hfront).bind next).append back
  · have hget : get c = .ok (a, c') := (h.decodes c hbound a c').mpr ⟨ha, hspan⟩
    rw [hget]
    exact (hnext c' hspan hback).behind hspan

theorem Framed.bind (h : Framed short get encode valid) {c : Cursor} {a : α} (ha : valid a)
    {back : List UInt8} (hlacks : c.Lacks (encode a ++ back))
    {next : α × Cursor → Except ε β}
    (hnext : ∀ c', c'.Lacks back → RunsDry short (next (a, c')) c' back) :
    RunsDry short (get c >>= next) c (encode a ++ back) :=
  (h c.remaining).bind (Nat.le_refl _) ha hlacks fun c' _ => hnext c'

/-- **The rule of sequences**, by induction on the count. -/
theorem FramedWithin.many (h : FramedWithin short bound get encode valid) (count : Nat) :
    FramedWithin short bound (many get count) (fun as => as.flatMap encode)
      fun as => as.length = count ∧ ∀ a ∈ as, valid a := by
  refine ⟨h.decodes.many count, ?_⟩
  induction count with
  | zero =>
    intro c _ as hvalid hlacks
    obtain rfl := List.length_eq_zero_iff.mp hvalid.1
    exact absurd hlacks c.not_lacks_nil
  | succ count ih =>
    intro c hbound as hvalid hlacks
    obtain ⟨hlength, hall⟩ := hvalid
    cases as with
    | nil => cases hlength
    | cons a as =>
      obtain ⟨ha, hall⟩ := List.forall_mem_cons.mp hall
      rw [many_succ]
      refine h.bind hbound ha hlacks ?_
      intro c' hspan hlacks'
      have hbound' : c'.remaining ≤ bound := by
        have := hspan.remaining
        omega
      exact (ih c' hbound' as ⟨Nat.succ.inj hlength, hall⟩ hlacks').bind _

theorem Framed.many (h : Framed short get encode valid) (count : Nat) :
    Framed short (ByteCodec.many get count) (fun as => as.flatMap encode)
      fun as => as.length = count ∧ ∀ a ∈ as, valid a :=
  fun bound => (h bound).many count

end

end ByteCodec
