import Mathlib.Data.List.Basic

/-!
# Lines of a text

Splitting a text at its newlines, as a line reader does it: a line ends at a newline, which is not
part of it, nor is a carriage return right before it, and the last line needs no end. Lines free of
both characters, each ended by a newline, are what their text splits into (`lines_flatMap`).
-/

namespace TextLines

/-- A text is its characters. -/
abbrev Text := List Char

/-- A line without the carriage return in front of its newline. -/
def dropReturn (line : Text) : Text := if line.getLast? = some '\r' then line.dropLast else line

/-- The lines of a text, the first one begun already. -/
def split : (current : Text) → Text → List Text
  | current, [] => if current = [] then [] else [current]
  | current, c :: rest =>
    if c = '\n' then dropReturn current :: split [] rest else split (current ++ [c]) rest

def lines (text : Text) : List Text := split [] text

/-- The characters with the White_Space property. -/
def isWhitespace (c : Char) : Bool :=
  let n := c.toNat
  (9 ≤ n && n ≤ 13) || n == 32 || n == 0x85 || n == 0xA0 || n == 0x1680 ||
    (0x2000 ≤ n && n ≤ 0x200A) || n == 0x2028 || n == 0x2029 || n == 0x202F || n == 0x205F ||
    n == 0x3000

/-- Nothing is left of the line when it is trimmed. -/
def isBlank (line : Text) : Bool := line.all isWhitespace

/-- A line that splits off as it is. -/
structure Plain (line : Text) : Prop where
  newline : '\n' ∉ line
  carriage : '\r' ∉ line

theorem dropReturn_of_not_mem {line : Text} (h : '\r' ∉ line) : dropReturn line = line := by
  rw [dropReturn, if_neg fun hlast => h (List.mem_of_getLast? hlast)]

theorem split_line {line : Text} (h : '\n' ∉ line) (current rest : Text) :
    split current (line ++ '\n' :: rest) = dropReturn (current ++ line) :: split [] rest := by
  induction line generalizing current with
  | nil =>
    rw [List.nil_append, List.append_nil, split, if_pos rfl]
  | cons c line ih =>
    have hc : c ≠ '\n' := fun heq => h (heq ▸ List.mem_cons_self)
    have hline : '\n' ∉ line := fun hmem => h (List.mem_cons_of_mem c hmem)
    rw [List.cons_append, split, if_neg hc, ih hline, List.append_assoc, List.singleton_append]

/-- **The lines of written lines.** -/
theorem lines_flatMap {written : List Text} (h : ∀ line ∈ written, Plain line) :
    lines (written.flatMap (· ++ ['\n'])) = written := by
  induction written with
  | nil => rfl
  | cons line written ih =>
    obtain ⟨hline, hrest⟩ := List.forall_mem_cons.mp h
    have hsplit := split_line hline.newline [] (written.flatMap (· ++ ['\n']))
    rw [List.nil_append, dropReturn_of_not_mem hline.carriage] at hsplit
    rw [List.flatMap_cons, List.append_assoc, List.singleton_append, lines, hsplit]
    exact congrArg (line :: ·) (ih hrest)

/-- Newlines between the lines and one at the end. -/
theorem intercalate_append {written : List Text} (h : written ≠ []) :
    List.intercalate ['\n'] written ++ ['\n'] = written.flatMap (· ++ ['\n']) := by
  induction written with
  | nil => exact absurd rfl h
  | cons line written ih =>
    cases written with
    | nil => simp [List.intercalate]
    | cons next written =>
      have hrest := ih (List.cons_ne_nil next written)
      rw [List.flatMap_cons, ← hrest]
      simp [List.intercalate, List.append_assoc]

/-! ### Bytes -/

def utf8 (text : String) : List UInt8 := text.toByteArray.data.toList

def fromUtf8 (bytes : List UInt8) : Option String := String.fromUTF8? ⟨bytes.toArray⟩

theorem fromUtf8_utf8 (text : String) : fromUtf8 (utf8 text) = some text := by
  have hvalid : (⟨(utf8 text).toArray⟩ : ByteArray).IsValidUTF8 := text.isValidUTF8
  unfold fromUtf8 String.fromUTF8?
  rw [dif_pos hvalid]
  rfl

theorem utf8_of_fromUtf8 {bytes : List UInt8} {text : String} (h : fromUtf8 bytes = some text) :
    utf8 text = bytes := by
  unfold fromUtf8 String.fromUTF8? at h
  split at h
  · cases h
    rfl
  · cases h

end TextLines
