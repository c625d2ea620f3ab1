import UvrrCore.ByteCodec

/-!
# Fixed layouts

Buffers written and read at offsets. `put` overwrites the bytes from an offset on, as a slice copy
does and as a file does behind a seek: beyond the end it fills the gap with zeros. A record of
fixed layout is a buffer with a list of writes over it, and where these are ordered each of them is
read back from its window, whatever came later.

## Main results

* `putAll_stand`: of ordered writes each is read back.
* `window_putAll_before`: and what lies before them stays.
-/

namespace FixedLayout

open ByteCodec

/-- So many bytes of a buffer, from an offset on. -/
def window (buf : List UInt8) (offset len : Nat) : List UInt8 := (buf.drop offset).take len

/-- The bytes of a buffer overwritten from an offset on. -/
def put (buf : List UInt8) (offset : Nat) (bytes : List UInt8) : List UInt8 :=
  buf.take offset ++ List.replicate (offset - buf.length) 0 ++ bytes ++
    buf.drop (offset + bytes.length)

variable {buf bytes : List UInt8} {offset pos len : Nat}

theorem put_eq (h : offset ≤ buf.length) (bytes : List UInt8) :
    put buf offset bytes = buf.take offset ++ (bytes ++ buf.drop (offset + bytes.length)) := by
  rw [put, Nat.sub_eq_zero_of_le h, List.replicate_zero, List.append_nil, List.append_assoc]

theorem put_length (h : offset + bytes.length ≤ buf.length) :
    (put buf offset bytes).length = buf.length := by
  rw [put_eq (by omega), List.length_append, List.length_append, List.length_take,
    List.length_drop]
  omega

theorem le_put_length (h : offset ≤ buf.length) :
    buf.length ≤ (put buf offset bytes).length ∧
      offset + bytes.length ≤ (put buf offset bytes).length := by
  rw [put_eq h, List.length_append, List.length_append, List.length_take, List.length_drop]
  omega

theorem put_length_le (h : offset ≤ buf.length) :
    (put buf offset bytes).length ≤ buf.length + bytes.length := by
  rw [put_eq h, List.length_append, List.length_append, List.length_take, List.length_drop]
  omega

theorem window_length (h : pos + len ≤ buf.length) : (window buf pos len).length = len := by
  rw [window, List.length_take, List.length_drop]
  omega

theorem window_add (buf : List UInt8) (pos front back : Nat) :
    window buf pos (front + back) = window buf pos front ++ window buf (pos + front) back := by
  unfold window
  rw [List.take_add, List.drop_drop]

/-- Two fields stand one behind the other. -/
theorem window_append {front back : List UInt8} (hpos : pos ≤ buf.length) :
    window buf pos (front ++ back).length = front ++ back ↔
      window buf pos front.length = front ∧ window buf (pos + front.length) back.length = back := by
  rw [List.length_append, window_add]
  constructor
  · intro h
    by_cases hroom : pos + front.length ≤ buf.length
    · exact List.append_inj h (window_length hroom)
    · have hlength := congrArg List.length h
      simp only [window, List.length_append, List.length_take, List.length_drop] at hlength
      omega
  · rintro ⟨hfront, hback⟩
    rw [hfront, hback]

/-- What is read whole lies inside the buffer. -/
theorem le_of_window (hpos : pos ≤ buf.length) (h : window buf pos bytes.length = bytes) :
    pos + bytes.length ≤ buf.length := by
  have hlength := congrArg List.length h
  rw [window, List.length_take, List.length_drop] at hlength
  omega

/-- The part of a buffer between two others. -/
theorem window_between (front bytes back : List UInt8) :
    window (front ++ (bytes ++ back)) front.length bytes.length = bytes := by
  rw [window, List.drop_left, List.take_left]

theorem window_put (h : offset ≤ buf.length) (bytes : List UInt8) :
    window (put buf offset bytes) offset bytes.length = bytes := by
  have htake : (buf.take offset).length = offset := List.length_take_of_le h
  rw [window, put_eq h, List.drop_left' htake, List.take_left]

theorem window_put_before (h : offset ≤ buf.length) (hbefore : pos + len ≤ offset) :
    window (put buf offset bytes) pos len = window buf pos len := by
  have htake : (buf.take offset).length = offset := List.length_take_of_le h
  unfold window
  rw [put_eq h, List.drop_append_of_le_length (by omega), List.take_append_of_le_length]
  · rw [List.drop_take, List.take_take]
    congr 1
    omega
  · rw [List.length_drop]
    omega

theorem drop_put (h : offset ≤ buf.length) (hbehind : offset + bytes.length ≤ pos) :
    (put buf offset bytes).drop pos = buf.drop pos := by
  have htake : (buf.take offset).length = offset := List.length_take_of_le h
  rw [put_eq h, ← List.append_assoc]
  have hfront : (buf.take offset ++ bytes).length = offset + bytes.length := by
    rw [List.length_append, htake]
  rw [List.drop_append, List.drop_eq_nil_of_le (by omega), List.nil_append, hfront,
    List.drop_drop]
  congr 1
  omega

theorem window_put_after (h : offset ≤ buf.length) (hbehind : offset + bytes.length ≤ pos) :
    window (put buf offset bytes) pos len = window buf pos len := by
  unfold window
  rw [drop_put h hbehind]

theorem take_put (h : offset ≤ buf.length) (hbefore : len ≤ offset) :
    (put buf offset bytes).take len = buf.take len := by
  have htake : (buf.take offset).length = offset := List.length_take_of_le h
  rw [put_eq h, List.take_append_of_le_length (by omega), List.take_take]
  congr 1
  omega

/-! ### Writes in order -/

structure Write where
  offset : Nat
  bytes : List UInt8

def Write.stop (w : Write) : Nat := w.offset + w.bytes.length

def putAll (buf : List UInt8) (writes : List Write) : List UInt8 :=
  writes.foldl (fun buf w => put buf w.offset w.bytes) buf

/-- **Writes one behind the other**, the first from `lo` on and the last up to `hi`. -/
def Ordered (lo : Nat) : List Write → (hi : Nat) → Prop
  | [], hi => lo ≤ hi
  | w :: writes, hi => lo ≤ w.offset ∧ Ordered w.stop writes hi

variable {writes : List Write} {lo hi : Nat}

theorem Ordered.le (h : Ordered lo writes hi) : lo ≤ hi := by
  induction writes generalizing lo with
  | nil => exact h
  | cons w writes ih =>
    have := ih h.2
    have := h.1
    unfold Write.stop at *
    omega

theorem ordered_append {front back : List Write} {mid : Nat} (hfront : Ordered lo front mid)
    (hback : Ordered mid back hi) : Ordered lo (front ++ back) hi := by
  induction front generalizing lo with
  | nil =>
    cases back with
    | nil => exact Nat.le_trans hfront hback
    | cons w back => exact ⟨Nat.le_trans hfront hback.1, hback.2⟩
  | cons w front ih => exact ⟨hfront.1, ih hfront.2⟩

theorem putAll_length (h : Ordered lo writes hi) (hroom : hi ≤ buf.length) :
    (putAll buf writes).length = buf.length := by
  induction writes generalizing lo buf with
  | nil => rfl
  | cons w writes ih =>
    have hstop : w.offset + w.bytes.length ≤ buf.length := Nat.le_trans h.2.le hroom
    have hput := put_length hstop
    have hroom' : hi ≤ (put buf w.offset w.bytes).length := by omega
    exact (ih h.2 hroom').trans hput

theorem window_putAll_before (h : Ordered lo writes hi) (hroom : hi ≤ buf.length)
    (hbefore : pos + len ≤ lo) : window (putAll buf writes) pos len = window buf pos len := by
  induction writes generalizing lo buf with
  | nil => rfl
  | cons w writes ih =>
    have hlo := h.1
    have hstop : w.offset + w.bytes.length ≤ buf.length := Nat.le_trans h.2.le hroom
    have hput := put_length hstop
    have hroom' : hi ≤ (put buf w.offset w.bytes).length := by omega
    have hrest := ih h.2 hroom' (Nat.le_trans (by omega) (Nat.le_add_right _ w.bytes.length))
    exact hrest.trans (window_put_before (by omega) (by omega))

theorem Ordered.stop_le (h : Ordered lo writes hi) {w : Write} (hmem : w ∈ writes) :
    w.stop ≤ hi := by
  induction writes generalizing lo with
  | nil => cases hmem
  | cons first writes ih =>
    rcases List.mem_cons.mp hmem with rfl | hmem
    · exact h.2.le
    · exact ih h.2 hmem

/-- Writes that can be read in a buffer. -/
def Stand (buf : List UInt8) (writes : List Write) : Prop :=
  ∀ w ∈ writes, window buf w.offset w.bytes.length = w.bytes

theorem stand_nil (buf : List UInt8) : Stand buf [] := fun _ hw => absurd hw List.not_mem_nil

theorem stand_cons {w : Write} :
    Stand buf (w :: writes) ↔
      window buf w.offset w.bytes.length = w.bytes ∧ Stand buf writes := List.forall_mem_cons

theorem stand_append {front back : List Write} :
    Stand buf (front ++ back) ↔ Stand buf front ∧ Stand buf back := List.forall_mem_append

/-- **Each of ordered writes is read back.** -/
theorem putAll_stand (h : Ordered lo writes hi) (hroom : hi ≤ buf.length) :
    Stand (putAll buf writes) writes := by
  induction writes generalizing lo buf with
  | nil => exact stand_nil _
  | cons w writes ih =>
    have hstop : w.offset + w.bytes.length ≤ buf.length := Nat.le_trans h.2.le hroom
    have hput := put_length hstop
    have hroom' : hi ≤ (put buf w.offset w.bytes).length := by omega
    have hrest := window_putAll_before h.2 hroom' (Nat.le_refl _)
    exact stand_cons.mpr ⟨hrest.trans (window_put (by omega) w.bytes), ih h.2 hroom'⟩

/-- They stay readable under what is written behind them. -/
theorem Stand.put (h : Stand buf writes) (hordered : Ordered lo writes hi) (hhi : hi ≤ offset)
    (hroom : offset ≤ buf.length) : Stand (put buf offset bytes) writes := by
  intro w hw
  have hstop := hordered.stop_le hw
  rw [window_put_before hroom (Nat.le_trans hstop hhi)]
  exact h w hw

/-! ### Torn writes -/

/-- **A write cut short**: whatever it left lies where it was to write, and nothing is shorter. -/
structure Torn (buf : List UInt8) (offset len : Nat) (buf' : List UInt8) : Prop where
  grown : buf.length ≤ buf'.length
  outside : ∀ i, i < offset ∨ offset + len ≤ i → buf'[i]? = buf[i]?

theorem Torn.refl (buf : List UInt8) (offset len : Nat) : Torn buf offset len buf :=
  ⟨Nat.le_refl _, fun _ _ => rfl⟩

theorem torn_put (h : offset ≤ buf.length) (bytes : List UInt8) :
    Torn buf offset bytes.length (put buf offset bytes) := by
  refine ⟨(le_put_length h).1, fun i hi => ?_⟩
  have htake : (buf.take offset).length = offset := List.length_take_of_le h
  rw [put_eq h]
  rcases hi with hi | hi
  · rw [List.getElem?_append_left (by omega), List.getElem?_take_of_lt hi]
  · rw [List.getElem?_append_right (by omega), List.getElem?_append_right (by omega),
      List.getElem?_drop, htake]
    congr 1
    omega

theorem Torn.window {buf' : List UInt8} {n : Nat} (h : Torn buf offset len buf')
    (hdisjoint : pos + n ≤ offset ∨ offset + len ≤ pos) :
    window buf' pos n = FixedLayout.window buf pos n := by
  refine List.ext_getElem? fun i => ?_
  unfold FixedLayout.window
  by_cases hi : i < n
  · rw [List.getElem?_take_of_lt hi, List.getElem?_take_of_lt hi, List.getElem?_drop,
      List.getElem?_drop, h.outside _ (by omega)]
  · rw [List.getElem?_eq_none (by rw [List.length_take]; omega),
      List.getElem?_eq_none (by rw [List.length_take]; omega)]

/-! ### Numbers -/

/-- The number of so many bytes at an offset, most significant byte first. -/
def getUint (width : Nat) (buf : List UInt8) (offset : Nat) : Nat :=
  beValue (window buf offset width)

theorem getUint_lt (width : Nat) (buf : List UInt8) (offset : Nat) :
    getUint width buf offset < 256 ^ width := by
  have hlt := beValue_lt (window buf offset width)
  refine Nat.lt_of_lt_of_le hlt (Nat.pow_le_pow_right (by decide) ?_)
  exact List.length_take_le _ _

theorem getUint_of_window {width value : Nat} (hvalue : value < 256 ^ width)
    (h : window buf offset (beBytes width value).length = beBytes width value) :
    getUint width buf offset = value := by
  rw [beBytes_length] at h
  rw [getUint, h, beValue_beBytes hvalue]

/-- A number read inside a buffer is what stands there. -/
theorem window_getUint {width : Nat} (hroom : offset + width ≤ buf.length) :
    window buf offset (beBytes width (getUint width buf offset)).length =
      beBytes width (getUint width buf offset) := by
  rw [beBytes_length, getUint, beBytes_beValue (window_length hroom)]

end FixedLayout
