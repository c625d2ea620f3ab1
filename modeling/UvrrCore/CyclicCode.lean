import Mathlib.Data.List.Basic
import Mathlib.Logic.Function.Iterate

/-!
# Cyclic checksums

A register of any width that takes a sequence of words in, most significant bit last: each word is
added to it and a number of shifts divides by the reflected polynomial. When the polynomial has its
top bit set a shift loses nothing (`shiftOut_injective`), so the register behind a word tells the
register before it. Hence one word that differs is never made up for by what follows
(`feed_changed`).
-/

namespace CyclicCode

variable {w : Nat}

/-- One shift: the low bit goes out, and the polynomial is added when it was set. -/
def shiftOut (poly register : BitVec w) : BitVec w :=
  (register >>> 1) ^^^ (poly &&& -(register &&& 1#w))

/-- One word, and the shifts behind it. -/
def feedWord (poly : BitVec w) (shifts : Nat) (register word : BitVec w) : BitVec w :=
  (shiftOut poly)^[shifts] (register ^^^ word)

def feed (poly : BitVec w) (shifts : Nat) (register : BitVec w) (words : List (BitVec w)) :
    BitVec w :=
  words.foldl (feedWord poly shifts) register

/-- The mask of a shift is all ones or nothing. -/
theorem neg_and_one (register : BitVec w) :
    -(register &&& 1#w) = if register.getLsbD 0 then BitVec.allOnes w else 0#w := by
  rw [BitVec.and_one_eq_setWidth_ofBool_getLsbD]
  cases register.getLsbD 0 with
  | false => simp
  | true =>
    have hone : BitVec.setWidth w (BitVec.ofBool true) = 1#w :=
      BitVec.eq_of_toNat_eq (by simp)
    rw [if_pos rfl, ← BitVec.neg_one_eq_allOnes, hone]

theorem shiftOut_eq (poly register : BitVec w) :
    shiftOut poly register =
      (register >>> 1) ^^^ (if register.getLsbD 0 then poly else 0#w) := by
  unfold shiftOut
  rw [neg_and_one]
  cases register.getLsbD 0 <;> simp

/-- The bit that goes out is the top bit of what is left. -/
theorem msb_shiftOut {poly : BitVec w} (hpoly : poly.msb = true) (register : BitVec w) :
    (shiftOut poly register).msb = register.getLsbD 0 := by
  have htop : (register >>> 1).msb = false := by
    rw [BitVec.msb_ushiftRight]
    simp
  rw [shiftOut_eq, BitVec.msb_xor, htop, Bool.false_xor]
  cases register.getLsbD 0 with
  | false => simp
  | true => simpa using hpoly

/-- **A shift loses nothing** when the polynomial has its top bit set. -/
theorem shiftOut_injective {poly : BitVec w} (hpoly : poly.msb = true) :
    Function.Injective (shiftOut poly) := by
  intro a b h
  have hlow : a.getLsbD 0 = b.getLsbD 0 := by
    rw [← msb_shiftOut hpoly a, ← msb_shiftOut hpoly b, h]
  rw [shiftOut_eq, shiftOut_eq, hlow] at h
  have hrest : a >>> 1 = b >>> 1 := (BitVec.xor_left_inj _).mp h
  refine BitVec.eq_of_getLsbD_eq fun i hi => ?_
  cases i with
  | zero => exact hlow
  | succ i =>
    have hbit := congrArg (fun x : BitVec w => x.getLsbD i) hrest
    simpa [BitVec.getLsbD_ushiftRight, Nat.add_comm] using hbit

theorem feedWord_injective {poly : BitVec w} (hpoly : poly.msb = true) (shifts : Nat)
    {a b u v : BitVec w} (h : feedWord poly shifts a u = feedWord poly shifts b v) :
    a ^^^ u = b ^^^ v :=
  (shiftOut_injective hpoly).iterate shifts h

theorem feed_append (poly : BitVec w) (shifts : Nat) (register : BitVec w)
    (front back : List (BitVec w)) :
    feed poly shifts register (front ++ back) =
      feed poly shifts (feed poly shifts register front) back :=
  List.foldl_append

/-- The register behind the words tells the register before them. -/
theorem feed_injective {poly : BitVec w} (hpoly : poly.msb = true) (shifts : Nat)
    (words : List (BitVec w)) {a b : BitVec w}
    (h : feed poly shifts a words = feed poly shifts b words) : a = b := by
  induction words generalizing a b with
  | nil => exact h
  | cons word words ih =>
    have hword := feedWord_injective hpoly shifts (ih h)
    exact (BitVec.xor_left_inj _).mp hword

/-- **One word that differs** leaves another register, whatever follows it. -/
theorem feed_changed {poly : BitVec w} (hpoly : poly.msb = true) (shifts : Nat)
    (register : BitVec w) (front back : List (BitVec w)) {u v : BitVec w} (hne : u ≠ v) :
    feed poly shifts register (front ++ u :: back) ≠
      feed poly shifts register (front ++ v :: back) := by
  intro h
  rw [feed_append, feed_append] at h
  have hword := feedWord_injective hpoly shifts (feed_injective hpoly shifts back h)
  exact hne ((BitVec.xor_right_inj _).mp hword)

end CyclicCode
