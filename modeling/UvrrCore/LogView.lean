import UvrrCore.DoubleEnded
import UvrrCore.InPlace

/-!
# Views of the segmented log

A view is the log as it was when it was taken: its slabs, its boundary table and a copy of its
tail. It is read at a slot (`entryAt`), over a range from both ends (`iterRange`), and by copying
a range out (`copyOut`).

What all of them read is a list of entries from a first slot on, `HeldLog`. The calls of a log
append to it, cut it and continue it, or take a front off it (`HeldLog.Takes`), and every reader
of every view agrees with it (`segmentedLog_refines`).
-/

namespace UvrrCore

open DoubleEnded

structure LogView where
  slabs : List (List LogEntry)
  boundaries : List (Nat × Nat)
  tail : List LogEntry
  /-- The first slot physically held. -/
  first : Nat
  /-- The frontier when the view was taken. -/
  last : Option Nat

def LogData.view (l : LogData) : LogView where
  slabs := l.slabs
  boundaries := l.boundaries
  tail := l.tail
  first := l.firstSlot
  last := l.accepted

/-- What a copy did with the range it was asked for. -/
inductive RangeOutcome where
  | complete
  | short (through : Nat)
  | belowRetention (slot first : Nat)
  | empty
deriving DecidableEq, Repr

namespace LogView

def accepted (v : LogView) : Option Nat := v.last

/-- The slot at which the tail begins. -/
def tailStart (v : LogView) : Nat :=
  match v.boundaries.getLast? with
  | some (first, len) => first + len
  | none => v.first

/-- The entry at a slot: of the last slab that begins at or below it, or of the tail. -/
def entryAt (v : LogView) (slot : Nat) : Option LogEntry :=
  let index := (v.boundaries.takeWhile fun b => decide (b.1 ≤ slot)).length
  let inTail := if slot < v.tailStart then none else v.tail[slot - v.tailStart]?
  if 0 < index then
    match v.boundaries[index - 1]?, v.slabs[index - 1]? with
    | some (first, len), some slab =>
      if slot - first < len then slab[slot - first]? else inTail
    | _, _ => inTail
  else inTail

def get (v : LogView) (slot : Nat) : Option LogEntry := v.entryAt slot

/-- The window physically held. The last slot there is stands in for a position before the
anchor. -/
def retained (v : LogView) : Nat × Nat := (v.first, v.last.getD (u64Bound - 1))

end LogView

/-- A cursor over a range of a view: the next slot to yield from the front, the next from the
back, and whether the two ends have met. -/
structure RangeIter where
  view : LogView
  front : Nat
  back : Nat
  done : Bool
  ordered : done = false → front ≤ back

namespace RangeIter

def next (it : RangeIter) : Option LogEntry × RangeIter :=
  if it.done then (none, it)
  else
    (it.view.entryAt it.front,
      if hmet : it.front = it.back then
        { it with done := true, ordered := fun h => Bool.noConfusion h }
      else
        { it with
          front := it.front + 1
          ordered := fun h => Nat.lt_of_le_of_ne (it.ordered h) hmet })

def nextBack (it : RangeIter) : Option LogEntry × RangeIter :=
  if it.done then (none, it)
  else
    (it.view.entryAt it.back,
      if hmet : it.front = it.back then
        { it with done := true, ordered := fun h => Bool.noConfusion h }
      else
        { it with
          back := it.back - 1
          ordered := fun h => Nat.le_sub_one_of_lt (Nat.lt_of_le_of_ne (it.ordered h) hmet) })

/-- The cursor as a double-ended iterator. -/
def iter : Iter RangeIter LogEntry where
  next := next
  nextBack := nextBack

end RangeIter

namespace LogView

/-- The part of a range that is held, from the front and from the back. -/
def iterRange (v : LogView) (start through : Nat) : RangeIter :=
  match v.last with
  | none => ⟨v, 0, 0, true, fun _ => Nat.le_refl _⟩
  | some last =>
    { view := v
      front := max start v.first
      back := min through last
      done := decide (min through last < max start v.first)
      ordered := fun h => Nat.le_of_not_lt (of_decide_eq_false h) }

/-- A range appended to what was copied before. A range that begins below the first slot held is
not copied in part. -/
def copyOut (v : LogView) (start through : Nat) (into : List LogEntry) :
    RangeOutcome × List LogEntry :=
  if start < v.first then (.belowRetention start v.first, into)
  else
    match v.last with
    | none => (.empty, into)
    | some frontier =>
      if through < start then (.complete, into)
      else if frontier < start then (.short frontier, into)
      else
        let last := if frontier < through then frontier else through
        let it := v.iterRange start last
        let copied := into ++ RangeIter.iter.collect (it.back + 1 - it.front) it
        if frontier < through then (.short frontier, copied) else (.complete, copied)

end LogView

/-! ### What is held -/

/-- The entries of a list at the slots of a range. -/
def slotRange (entries : List LogEntry) (start through : Nat) : List LogEntry :=
  entries.filter fun entry => decide (start ≤ entry.slot) && decide (entry.slot ≤ through)

/-- **What a log holds**: a run of entries from a first slot on. -/
structure HeldLog where
  first : Nat
  entries : List LogEntry
  run : ContiguousFrom first entries
  genesis : voidSlot ≤ first

namespace HeldLog

/-- The slot behind the last entry. -/
def next (s : HeldLog) : Nat := s.first + s.entries.length

/-- The frontier. History begins at slot 1: a log that has it still ahead never held an entry. -/
def accepted (s : HeldLog) : Option Nat :=
  if s.next = voidSlot then none else some (s.next - 1)

def get (s : HeldLog) (slot : Nat) : Option LogEntry := entryAt s.entries slot

def range (s : HeldLog) (start through : Nat) : List LogEntry := slotRange s.entries start through

/-- What a copy of a range is to give. -/
def copyOut (s : HeldLog) (start through : Nat) (into : List LogEntry) :
    RangeOutcome × List LogEntry :=
  if start < s.first then (.belowRetention start s.first, into)
  else
    match s.accepted with
    | none => (.empty, into)
    | some frontier =>
      if through < start then (.complete, into)
      else if frontier < start then (.short frontier, into)
      else if frontier < through then (.short frontier, into ++ s.range start through)
      else (.complete, into ++ s.range start through)

end HeldLog

/-- **A view shows a list of entries** when every reader agrees with it. -/
structure LogView.Shows (v : LogView) (s : HeldLog) : Prop where
  accepted : v.accepted = s.accepted
  retained : v.retained = (s.first, s.accepted.getD (u64Bound - 1))
  get : ∀ slot, v.get slot = s.get slot
  iterRange : ∀ start through ends, RangeIter.iter.draws ends (v.iterRange start through) =
    ofList.draws ends (s.range start through)
  copyOut : ∀ start through into, v.copyOut start through into = s.copyOut start through into

/-! ### Ranges of a run -/

section Ranges

variable {first start through : Nat} {entries : List LogEntry}

theorem slotRange_cons_in {entry : LogEntry} (hlow : start ≤ entry.slot)
    (hhigh : entry.slot ≤ through) :
    slotRange (entry :: entries) start through = entry :: slotRange entries start through := by
  unfold slotRange
  rw [List.filter_cons_of_pos (by simp [hlow, hhigh])]

theorem slotRange_cons_out {entry : LogEntry} (hout : entry.slot < start ∨ through < entry.slot) :
    slotRange (entry :: entries) start through = slotRange entries start through := by
  unfold slotRange
  rw [List.filter_cons_of_neg]
  simp only [Bool.and_eq_true, decide_eq_true_eq]
  omega

theorem slotRange_below (h : ContiguousFrom first entries) (hlt : through < first) :
    slotRange entries start through = [] := by
  refine List.filter_eq_nil_iff.mpr fun entry hmem => ?_
  have := (h.mem_slot hmem).1
  simp only [Bool.and_eq_true, decide_eq_true_eq]
  omega

theorem slotRange_empty (hlt : through < start) : slotRange entries start through = [] := by
  refine List.filter_eq_nil_iff.mpr fun entry _ => ?_
  simp only [Bool.and_eq_true, decide_eq_true_eq]
  omega

/-- Only the slots of the run matter. -/
theorem slotRange_clip (h : ContiguousFrom first entries) {frontier : Nat}
    (hfrontier : frontier + 1 = first + entries.length) :
    slotRange entries start through =
      slotRange entries (max start first) (min through frontier) := by
  refine List.filter_congr fun entry hmem => ?_
  have := h.mem_slot hmem
  rw [Bool.eq_iff_iff]
  simp only [Bool.and_eq_true, decide_eq_true_eq]
  omega

theorem slotRange_append (h : ContiguousFrom first entries) {middle : Nat}
    (hlow : start ≤ middle + 1) (hhigh : middle ≤ through) :
    slotRange entries start through =
      slotRange entries start middle ++ slotRange entries (middle + 1) through := by
  induction entries generalizing first with
  | nil => rfl
  | cons entry rest ih =>
    obtain ⟨hslot, hrest⟩ := h
    by_cases hbelow : entry.slot < start
    · rw [slotRange_cons_out (.inl hbelow), slotRange_cons_out (.inl hbelow),
        slotRange_cons_out (.inl (by omega)), ih hrest]
    · by_cases hfront : entry.slot ≤ middle
      · rw [slotRange_cons_in (by omega) (by omega), slotRange_cons_in (by omega) hfront,
          slotRange_cons_out (.inl (by omega)), ih hrest, List.cons_append]
      · -- the run is past the first part
        have hnone : slotRange rest start middle = [] := slotRange_below hrest (by omega)
        rw [hnone, List.nil_append] at ih
        rw [slotRange_cons_out (show entry.slot < start ∨ middle < entry.slot by omega), hnone,
          List.nil_append]
        by_cases hin : entry.slot ≤ through
        · rw [slotRange_cons_in (by omega) hin, slotRange_cons_in (by omega) hin, ih hrest]
        · rw [slotRange_cons_out (.inr (by omega)), slotRange_cons_out (.inr (by omega)), ih hrest]

theorem slotRange_single (h : ContiguousFrom first entries) {entry : LogEntry}
    (hentry : entryAt entries start = some entry) : slotRange entries start start = [entry] := by
  induction entries generalizing first with
  | nil => cases hentry
  | cons held rest ih =>
    obtain ⟨hslot, hrest⟩ := h
    unfold entryAt at hentry ih
    by_cases hheld : held.slot = start
    · rw [List.find?_cons_of_pos (by simpa using hheld)] at hentry
      cases hentry
      rw [slotRange_cons_in hheld.ge hheld.le, slotRange_below hrest (by omega)]
    · rw [List.find?_cons_of_neg (by simpa using hheld)] at hentry
      rw [slotRange_cons_out (by omega), ih hrest hentry]

theorem slotRange_length (h : ContiguousFrom first entries) :
    (slotRange entries start through).length ≤ through + 1 - max start first := by
  induction entries generalizing first with
  | nil => exact Nat.zero_le _
  | cons entry rest ih =>
    obtain ⟨hslot, hrest⟩ := h
    have hlen := ih hrest
    by_cases hin : start ≤ entry.slot ∧ entry.slot ≤ through
    · rw [slotRange_cons_in hin.1 hin.2, List.length_cons]
      omega
    · rw [slotRange_cons_out (by omega)]
      omega

end Ranges

namespace HeldLog

variable {s : HeldLog} {start through : Nat}

theorem get_isSome (hlow : s.first ≤ start) (hhigh : start < s.next) :
    ∃ entry, s.get start = some entry :=
  Option.isSome_iff_exists.mp ((s.run.entryAt_isSome start).mpr ⟨hlow, hhigh⟩)

/-- A range gives its first entry away and is the range behind it. -/
theorem range_front (hlow : s.first ≤ start) (hle : start ≤ through) (hhigh : through < s.next) :
    ∃ entry, s.get start = some entry ∧
      s.range start through = entry :: s.range (start + 1) through := by
  obtain ⟨entry, hentry⟩ := get_isSome hlow (by omega : start < s.next)
  refine ⟨entry, hentry, ?_⟩
  unfold range
  rw [slotRange_append s.run (Nat.le_succ start) hle, slotRange_single s.run hentry,
    List.singleton_append]

/-- A range gives its last entry away and is the range below it. -/
theorem range_back (hlow : s.first ≤ start) (hle : start ≤ through) (hhigh : through < s.next) :
    ∃ entry, s.get through = some entry ∧
      s.range start through = s.range start (through - 1) ++ [entry] := by
  obtain ⟨entry, hentry⟩ := get_isSome (show s.first ≤ through by omega) hhigh
  refine ⟨entry, hentry, ?_⟩
  have hpos : 1 ≤ s.first := s.genesis
  have happend := slotRange_append s.run (show start ≤ through - 1 + 1 by omega)
    (Nat.sub_le through 1)
  rw [Nat.sub_add_cancel (by omega), slotRange_single s.run hentry] at happend
  exact happend

end HeldLog

/-! ### Views of well-formed logs -/

theorem takeWhile_zip {β γ : Type} (p : β → Bool) {bs : List β} {cs : List γ}
    (hlength : bs.length = cs.length) :
    ((bs.zip cs).takeWhile fun b => p b.1) = (bs.zip cs).take (bs.takeWhile p).length := by
  induction bs generalizing cs with
  | nil => rfl
  | cons b bs ih =>
    cases cs with
    | nil => cases hlength
    | cons c cs =>
      rw [List.zip_cons_cons, List.takeWhile_cons, List.takeWhile_cons]
      cases hp : p b with
      | false => rfl
      | true =>
        simp only [if_true, List.length_cons, List.take_succ_cons]
        rw [ih (Nat.succ.inj hlength)]

/-- The bisection of a view finds the slab the log finds. -/
theorem LogData.WellFormed.entryAt_view {l : LogData} (h : l.WellFormed) (slot : Nat) :
    l.view.entryAt slot = entryAt l.content slot := by
  rw [← h.lookup_eq]
  have hlength := h.slabs.length_eq
  have hbounds : l.view.boundaries = l.boundaries := rfl
  have hslabs : l.view.slabs = l.slabs := rfl
  unfold LogView.entryAt LogData.lookup LogData.slabAt
  rw [takeWhile_zip (fun b : Nat × Nat => decide (b.1 ≤ slot)) hlength, hbounds, hslabs]
  have hbound := (List.takeWhile_sublist (fun b : Nat × Nat => decide (b.1 ≤ slot))
    (l := l.boundaries)).length_le
  generalize (l.boundaries.takeWhile fun b => decide (b.1 ≤ slot)).length = index at hbound ⊢
  simp only
  by_cases hpos : 0 < index
  · have hb : l.boundaries[index - 1]? = some l.boundaries[index - 1] :=
      List.getElem?_eq_getElem (by omega)
    have hs : l.slabs[index - 1]? = some l.slabs[index - 1] := List.getElem?_eq_getElem (by omega)
    have hpair : (l.boundaries.zip l.slabs)[index - 1]? =
        some (l.boundaries[index - 1], l.slabs[index - 1]) :=
      List.getElem?_zip_eq_some.mpr ⟨hb, hs⟩
    rw [if_pos hpos, List.getLast?_take, if_neg (show ¬index = 0 by omega), hpair, Option.some_or,
      hb, hs]
    rfl
  · rw [if_neg hpos, show index = 0 by omega, List.take_zero]
    rfl

/-- **A log and what it holds.** -/
structure LogData.Holds (l : LogData) (s : HeldLog) : Prop where
  wellFormed : l.WellFormed
  first : l.firstSlot = s.first
  content : l.content = s.entries
  /-- A log that never held an entry begins at the anchor, and ends before it. -/
  pristine : l.accepted = none → s.next = voidSlot
  frontier : ∀ frontier, l.accepted = some frontier → frontier + 1 = s.next ∧ voidSlot < s.next ∧
    s.next < u64Bound

theorem LogData.Holds.accepted {l : LogData} {s : HeldLog} (h : l.Holds s) :
    l.accepted = s.accepted := by
  unfold HeldLog.accepted
  cases hacc : l.accepted with
  | none => rw [if_pos (h.pristine hacc)]
  | some frontier =>
    obtain ⟨hnext, hpast, -⟩ := h.frontier frontier hacc
    rw [if_neg hpast.ne', ← hnext, Nat.add_sub_cancel]

/-- A cursor stands for the entries it has still to yield. -/
structure RangeIter.Yields (s : HeldLog) (it : RangeIter) (entries : List LogEntry) : Prop where
  reads : ∀ slot, it.view.entryAt slot = s.get slot
  met : it.done = true → entries = []
  ahead : it.done = false → s.first ≤ it.front ∧ it.back < s.next ∧
    entries = s.range it.front it.back

theorem RangeIter.Yields.next {s : HeldLog} {it : RangeIter} {entries : List LogEntry}
    (h : it.Yields s entries) :
    it.next.1 = entries.head? ∧ it.next.2.Yields s entries.tail := by
  cases hdone : it.done with
  | true =>
    obtain rfl := h.met hdone
    unfold RangeIter.next
    rw [if_pos hdone]
    exact ⟨rfl, h⟩
  | false =>
    obtain ⟨hlow, hhigh, rfl⟩ := h.ahead hdone
    obtain ⟨entry, hentry, hrange⟩ := HeldLog.range_front hlow (it.ordered hdone) hhigh
    unfold RangeIter.next
    rw [if_neg (by simp [hdone]), hrange, h.reads, hentry]
    refine ⟨rfl, ?_⟩
    show RangeIter.Yields s _ (s.range (it.front + 1) it.back)
    by_cases hmet : it.front = it.back
    · simp only [dif_pos hmet]
      exact ⟨h.reads, fun _ => slotRange_empty (by omega), fun h => Bool.noConfusion h⟩
    · simp only [dif_neg hmet]
      exact ⟨h.reads, fun h => absurd (hdone.symm.trans h) Bool.false_ne_true,
        fun _ => ⟨Nat.le_succ_of_le hlow, hhigh, rfl⟩⟩

theorem RangeIter.Yields.nextBack {s : HeldLog} {it : RangeIter} {entries : List LogEntry}
    (h : it.Yields s entries) :
    it.nextBack.1 = entries.getLast? ∧ it.nextBack.2.Yields s entries.dropLast := by
  cases hdone : it.done with
  | true =>
    obtain rfl := h.met hdone
    unfold RangeIter.nextBack
    rw [if_pos hdone]
    exact ⟨rfl, h⟩
  | false =>
    obtain ⟨hlow, hhigh, rfl⟩ := h.ahead hdone
    have hordered := it.ordered hdone
    have hpos : 1 ≤ s.first := s.genesis
    obtain ⟨entry, hentry, hrange⟩ := HeldLog.range_back hlow hordered hhigh
    unfold RangeIter.nextBack
    rw [if_neg (by simp [hdone]), hrange, h.reads, hentry, List.getLast?_concat,
      List.dropLast_concat]
    refine ⟨rfl, ?_⟩
    show RangeIter.Yields s _ (s.range it.front (it.back - 1))
    by_cases hmet : it.front = it.back
    · simp only [dif_pos hmet]
      exact ⟨h.reads, fun _ => slotRange_empty (by omega), fun h => Bool.noConfusion h⟩
    · simp only [dif_neg hmet]
      exact ⟨h.reads, fun h => absurd (hdone.symm.trans h) Bool.false_ne_true,
        fun _ => ⟨hlow, Nat.lt_of_le_of_lt (Nat.sub_le _ _) hhigh, rfl⟩⟩

theorem LogData.Holds.iterRange {l : LogData} {s : HeldLog} (h : l.Holds s) (start through : Nat) :
    (l.view.iterRange start through).Yields s (s.range start through) := by
  have hreads : ∀ slot, l.view.entryAt slot = s.get slot := by
    intro slot
    rw [h.wellFormed.entryAt_view, h.content]
    rfl
  have hlast : l.view.last = l.accepted := rfl
  have hfirst : l.view.first = s.first := h.first
  unfold LogView.iterRange
  cases hacc : l.accepted with
  | none =>
    rw [hlast, hacc]
    refine ⟨hreads, fun _ => ?_, fun h => Bool.noConfusion h⟩
    have hlength : s.first + s.entries.length = 1 := h.pristine hacc
    have hpos : 1 ≤ s.first := s.genesis
    unfold HeldLog.range
    rw [List.length_eq_zero_iff.mp (show s.entries.length = 0 by omega)]
    rfl
  | some frontier =>
    obtain ⟨hnext, -, -⟩ := h.frontier frontier hacc
    have hclip : s.range start through = s.range (max start s.first) (min through frontier) :=
      slotRange_clip s.run hnext
    rw [hlast, hacc]
    simp only [hfirst]
    refine ⟨hreads, fun hdone => ?_, fun _ => ⟨Nat.le_max_right _ _, ?_, hclip⟩⟩
    · rw [hclip]
      exact slotRange_empty (of_decide_eq_true hdone)
    · show min through frontier < s.next
      omega

theorem LogData.Holds.copyOut {l : LogData} {s : HeldLog} (h : l.Holds s) (start through : Nat)
    (into : List LogEntry) : l.view.copyOut start through into = s.copyOut start through into := by
  have hfirst : l.view.first = s.first := h.first
  have hlast : l.view.last = s.accepted := h.accepted
  unfold LogView.copyOut HeldLog.copyOut
  rw [hfirst, hlast]
  split
  · rfl
  · rename_i hretained
    cases hacc : s.accepted with
    | none => rfl
    | some frontier =>
      obtain ⟨hnext, -, -⟩ := h.frontier frontier (h.accepted.trans hacc)
      simp only
      split
      · rfl
      · split
        · rfl
        · have hcollect : ∀ last, start ≤ last → last ≤ frontier →
              RangeIter.iter.collect ((l.view.iterRange start last).back + 1 -
                (l.view.iterRange start last).front) (l.view.iterRange start last) =
                s.range start last := by
            intro last hlow hhigh
            have hyields := h.iterRange start last
            have hlength : (s.range start last).length ≤ last + 1 - max start s.first :=
              slotRange_length s.run
            have hends : (l.view.iterRange start last).back = min last frontier ∧
                (l.view.iterRange start last).front = max start l.view.first := by
              unfold LogView.iterRange
              rw [hlast, hacc]
              exact ⟨rfl, rfl⟩
            rw [hends.1, hends.2, hfirst]
            have hsame : ∀ fuel, RangeIter.iter.collect fuel (l.view.iterRange start last) =
                ofList.collect fuel (s.range start last) :=
              Iter.collect_simulates (R := RangeIter.Yields s) (fun it entries h => h.next) hyields
            rw [hsame]
            exact ofList_collect (by omega)
          by_cases hpast : frontier < through
          · have hnone : s.range start through = s.range start frontier := by
              have happend := slotRange_append s.run (show start ≤ frontier + 1 by omega)
                (show frontier ≤ through by omega)
              have hpast : slotRange s.entries (frontier + 1) through = [] := by
                refine List.filter_eq_nil_iff.mpr fun entry hmem => ?_
                have hslot : entry.slot < s.next := (s.run.mem_slot hmem).2
                simp only [Bool.and_eq_true, decide_eq_true_eq]
                omega
              rw [hpast, List.append_nil] at happend
              exact happend
            rw [if_pos hpast, if_pos hpast, if_pos hpast, hcollect _ (by omega) (Nat.le_refl _),
              hnone]
          · rw [if_neg hpast, if_neg hpast, if_neg hpast, hcollect _ (by omega) (by omega)]

/-- **Every reader of a view agrees with what the log held.** -/
theorem LogData.Holds.shows {l : LogData} {s : HeldLog} (h : l.Holds s) : l.view.Shows s where
  accepted := h.accepted
  retained := by
    show (l.firstSlot, l.accepted.getD _) = _
    rw [h.first, h.accepted]
  get slot := by
    show l.view.entryAt slot = _
    rw [h.wellFormed.entryAt_view, h.content]
    rfl
  iterRange start through ends := by
    refine Iter.draws_simulates (R := RangeIter.Yields s) (fun it entries e h => ?_)
      (h.iterRange start through) ends
    cases e with
    | front => exact h.next
    | back => exact h.nextBack
  copyOut := h.copyOut

/-! ### Calls -/

inductive LogCall where
  | accept (entries : List LogEntry)
  | installSuffix (start : Nat) (suffix : List LogEntry)
  | reclaimThrough (checkpoint : Nat)

/-- The log behind a body that works on it in place, and the answer. -/
def LogData.answered (l : LogData) (body : ExceptT JournalError (StateM LogData) Unit) :
    LogData × Except JournalError Unit :=
  (body.run.run l).swap

def LogData.call (l : LogData) : LogCall → LogData × Except JournalError Unit
  | .accept entries => l.answered (LogData.acceptInPlace entries)
  | .installSuffix start suffix => l.answered (LogData.installInPlace start suffix)
  | .reclaimThrough checkpoint => (l.reclaimThrough checkpoint, .ok ())

/-- What a call comes to that may be refused. -/
def LogData.settled (l : LogData) : Except JournalError LogData → LogData × Except JournalError Unit
  | .ok l' => (l', .ok ())
  | .error error => (l, .error error)

theorem LogData.call_accept (l : LogData) (entries : List LogEntry) :
    l.call (.accept entries) = l.settled (l.accept entries) := by
  rw [call, answered, acceptInPlace_run]
  cases l.accept entries with
  | ok l' => rfl
  | error error => rfl

theorem LogData.call_installSuffix (l : LogData) (start : Nat) (suffix : List LogEntry) :
    l.call (.installSuffix start suffix) = l.settled (l.installSuffix start suffix) := by
  rw [call, answered, installInPlace_run]
  cases l.installSuffix start suffix with
  | ok l' => rfl
  | error error => rfl

/-- A suffix is a run from where it is installed, and leaves no gap behind the frontier. -/
def LogCall.Legal (accepted : Option Nat) : LogCall → Prop
  | .installSuffix start suffix =>
    (∀ frontier, accepted = some frontier → start ≤ frontier + 1) ∧ ContiguousFrom start suffix
  | .accept _ | .reclaimThrough _ => True

/-- The calls of a log from its construction on, with their answers. -/
inductive LogRun (tailCapacity : Nat) : List (LogCall × Except JournalError Unit) → LogData → Prop
  | start : LogRun tailCapacity [] (.withTailCapacity tailCapacity)
  | call {history : List (LogCall × Except JournalError Unit)} {l : LogData}
      (h : LogRun tailCapacity history l) (call : LogCall) (hlegal : call.Legal l.accepted) :
      LogRun tailCapacity (history ++ [(call, (l.call call).2)]) (l.call call).1

namespace HeldLog

def genesisLog : HeldLog where
  first := voidSlot
  entries := []
  run := trivial
  genesis := Nat.le_refl _

/-- The calls that are not refused. The last slot there is has no successor and is never
journaled. -/
def Admits (s : HeldLog) : LogCall → Prop
  | .accept entries =>
    entries ≠ [] → ContiguousFrom s.next entries ∧ s.next + entries.length < u64Bound
  | .installSuffix start suffix =>
    s.first ≤ start ∧ suffix ≠ [] ∧ start + suffix.length < u64Bound
  | .reclaimThrough _ => True

/-- **What a call does** to what is held. -/
inductive Takes (s : HeldLog) : LogCall → Except JournalError Unit → HeldLog → Prop
  | accept {entries : List LogEntry} {t : HeldLog} (hadmits : s.Admits (.accept entries))
      (hfirst : t.first = s.first) (hentries : t.entries = s.entries ++ entries) :
      Takes s (.accept entries) (.ok ()) t
  | installSuffix {start : Nat} {suffix : List LogEntry} {t : HeldLog}
      (hadmits : s.Admits (.installSuffix start suffix))
      (hfirst : t.first = if s.next = voidSlot then start else s.first)
      (hentries : t.entries = s.entries.take (start - s.first) ++ suffix) :
      Takes s (.installSuffix start suffix) (.ok ()) t
  | reclaimThrough {checkpoint dropped : Nat} {t : HeldLog} (hdropped : dropped ≤ s.entries.length)
      (hcovered : ∀ entry ∈ s.entries.take dropped, entry.slot ≤ checkpoint)
      (hfirst : t.first = s.first + dropped) (hentries : t.entries = s.entries.drop dropped) :
      Takes s (.reclaimThrough checkpoint) (.ok ()) t
  | refused {call : LogCall} {error : JournalError} (hrefused : ¬s.Admits call) :
      Takes s call (.error error) s

/-- What is held behind a history of calls. -/
inductive Run : List (LogCall × Except JournalError Unit) → HeldLog → Prop
  | start : Run [] genesisLog
  | call {history : List (LogCall × Except JournalError Unit)} {s t : HeldLog} {call : LogCall}
      {outcome : Except JournalError Unit} (h : Run history s) (htakes : s.Takes call outcome t) :
      Run (history ++ [(call, outcome)]) t

end HeldLog

namespace LogData

variable {l : LogData} {s : HeldLog}

theorem Holds.start (tailCapacity : Nat) :
    (withTailCapacity tailCapacity).Holds HeldLog.genesisLog where
  wellFormed := .withTailCapacity tailCapacity
  first := rfl
  content := rfl
  pristine _ := rfl
  frontier _ h := by cases h

theorem Holds.nextSlot (h : l.Holds s) : l.nextSlot = s.next := by
  unfold LogData.nextSlot HeldLog.next
  rw [h.first, h.content]

theorem Holds.expectedNext (h : l.Holds s) : l.expectedNext = .ok s.next := by
  unfold LogData.expectedNext
  cases hacc : l.accepted with
  | none =>
    have hpristine := h.pristine hacc
    have hfrontier := h.wellFormed.frontier
    rw [hacc] at hfrontier
    rw [← h.nextSlot]
    unfold LogData.nextSlot
    rw [hfrontier]
    rfl
  | some frontier =>
    obtain ⟨hnext, -, hbound⟩ := h.frontier frontier hacc
    have hsucc : Slot.next frontier = some s.next := Slot.next_eq_some.mpr ⟨by omega, hnext.symm⟩
    simp only [hsucc]

/-- An accepted batch is appended, and no other is refused than one out of place. -/
theorem Holds.accept (h : l.Holds s) (entries : List LogEntry) :
    ∃ t, s.Takes (.accept entries) (l.call (.accept entries)).2 t ∧
      (l.call (.accept entries)).1.Holds t := by
  rw [l.call_accept]
  by_cases hnone : entries = []
  · subst hnone
    exact ⟨s, .accept (fun hne => absurd rfl hne) rfl (List.append_nil _).symm, h⟩
  cases hok : l.accept entries with
  | ok l' =>
    obtain ⟨hwf, hcontent, hfirst, hrun, haccepted⟩ := h.wellFormed.accept hnone hok
    have hpos := List.length_pos_iff.mpr hnone
    have hgenesis : 1 ≤ s.first := s.genesis
    have hbound := hwf.frontier
    rw [h.nextSlot] at hrun haccepted
    rw [haccepted] at hbound
    rw [h.content] at hcontent
    rw [h.first] at hfirst
    have hnext : s.next = s.first + s.entries.length := rfl
    refine ⟨⟨s.first, s.entries ++ entries, contiguousFrom_append.mpr ⟨s.run, hrun⟩, hgenesis⟩,
      .accept (fun _ => ⟨hrun, by omega⟩) rfl rfl, hwf, hfirst, hcontent, fun hacc => ?_,
      fun frontier hacc => ?_⟩
    · exact absurd (haccepted.symm.trans hacc) (Option.some_ne_none _)
    · have hlast : s.next + entries.length - 1 = frontier :=
        Option.some.inj (haccepted.symm.trans hacc)
      show frontier + 1 = s.first + (s.entries ++ entries).length ∧
        1 < s.first + (s.entries ++ entries).length ∧
        s.first + (s.entries ++ entries).length < u64Bound
      rw [List.length_append]
      omega
  | error error =>
    refine ⟨s, .refused fun hadmits => ?_, h⟩
    obtain ⟨hrun, hbound⟩ := hadmits hnone
    obtain ⟨last, hlast⟩ := Option.isSome_iff_exists.mp (List.getLast?_isSome.mpr hnone)
    unfold LogData.accept at hok
    rw [hlast, h.expectedNext] at hok
    simp only [checkRun_of_contiguous hrun fun _ => hbound] at hok
    cases hok

/-- An installed suffix cuts what is held and continues it, and no other is refused than one below
what is held, an empty one, or one that reaches the end of the slots. -/
theorem Holds.installSuffix (h : l.Holds s) {start : Nat} {suffix : List LogEntry}
    (hlegal : (LogCall.installSuffix start suffix).Legal l.accepted) :
    ∃ t, s.Takes (.installSuffix start suffix) (l.call (.installSuffix start suffix)).2 t ∧
      (l.call (.installSuffix start suffix)).1.Holds t := by
  obtain ⟨hgap, hsuffix⟩ := hlegal
  rw [l.call_installSuffix]
  have hgenesis : 1 ≤ s.first := s.genesis
  have hnext : s.next = s.first + s.entries.length := rfl
  -- the log continues its history at the cut, or begins it there
  have hanchor : (l.anchored start).firstSlot = (if s.next = voidSlot then start else s.first) ∧
      (s.next ≠ voidSlot → start ≤ s.next) ∧ l.expectedCut start = .ok start := by
    unfold LogData.anchored LogData.expectedCut
    cases hacc : l.accepted with
    | none =>
      rw [if_pos (h.pristine hacc), if_pos (by rfl)]
      exact ⟨rfl, fun hne => absurd (h.pristine hacc) hne, rfl⟩
    | some frontier =>
      obtain ⟨hend, hpast, hbound⟩ := h.frontier frontier hacc
      have hle := hgap frontier hacc
      rw [if_neg hpast.ne', if_neg (by simp)]
      refine ⟨h.first, fun _ => by omega, ?_⟩
      have hsucc : Slot.next frontier = some (frontier + 1) :=
        Slot.next_eq_some.mpr ⟨by omega, rfl⟩
      simp only [hsucc]
      split
      · rw [show frontier + 1 = start by omega]
      · rfl
  obtain ⟨hfirst, hbehind, hcut⟩ := hanchor
  cases hok : l.installSuffix start suffix with
  | ok l' =>
    obtain ⟨base, -, hwf, hne, hret, hrun, hfirst', hcontent, haccepted⟩ :=
      h.wellFormed.installSuffix hok
    obtain ⟨entry, rest, rfl⟩ := List.exists_cons_of_ne_nil hne
    obtain rfl : base = start := hrun.1.symm.trans hsuffix.1
    have hbound := hwf.frontier
    rw [haccepted] at hbound
    rw [hfirst] at hfirst'
    rw [hfirst', h.content] at hcontent
    rw [h.first] at hret
    -- a pristine log holds nothing to cut
    have hkept : s.entries.take (base - if s.next = voidSlot then base else s.first) =
        s.entries.take (base - s.first) := by
      split
      · rename_i hpristine
        have hpristine : s.next = 1 := hpristine
        rw [List.length_eq_zero_iff.mp (show s.entries.length = 0 by omega), List.take_nil,
          List.take_nil]
      · rfl
    rw [hkept] at hcontent
    have hcontig := hwf.contiguous
    rw [hfirst', hcontent] at hcontig
    have hlen : (if s.next = voidSlot then base else s.first) +
        (s.entries.take (base - s.first)).length = base := by
      rw [List.length_take]
      split
      · rename_i hpristine
        have hpristine : s.next = 1 := hpristine
        omega
      · rename_i hstarted
        have := hbehind hstarted
        omega
    have hbase : 1 ≤ if s.next = voidSlot then base else s.first := by
      split <;> omega
    generalize hfront : (if s.next = voidSlot then base else s.first) = front at *
    refine ⟨⟨_, _, hcontig, hbase⟩, .installSuffix ⟨hret, hne, by omega⟩ hfront.symm rfl, hwf,
      hfirst', hcontent, fun hacc => ?_, fun frontier hacc => ?_⟩
    · exact absurd (haccepted.symm.trans hacc) (Option.some_ne_none _)
    · have hlast : base + (entry :: rest).length - 1 = frontier :=
        Option.some.inj (haccepted.symm.trans hacc)
      show frontier + 1 = front + _ ∧ 1 < front + _ ∧ front + _ < u64Bound
      rw [List.length_append]
      rw [List.length_cons] at hlast hbound ⊢
      omega
  | error error =>
    refine ⟨s, .refused fun hadmits => ?_, h⟩
    obtain ⟨hret, hne, hbound⟩ := hadmits
    obtain ⟨last, hlast⟩ := Option.isSome_iff_exists.mp (List.getLast?_isSome.mpr hne)
    unfold LogData.installSuffix at hok
    rw [if_neg (by rw [h.first]; omega), hcut, hlast] at hok
    simp only [checkRun_of_contiguous hsuffix fun _ => hbound] at hok
    cases hok

/-- Reclaiming takes a front off what is held. -/
theorem Holds.reclaimThrough (h : l.Holds s) (checkpoint : Nat) :
    ∃ t, s.Takes (.reclaimThrough checkpoint) (.ok ()) t ∧ (l.reclaimThrough checkpoint).Holds t := by
  obtain ⟨hwf, haccepted, dropped, hdropped, hbound, hfirst, hcontent⟩ :=
    h.wellFormed.reclaimThrough checkpoint
  rw [h.content] at hdropped hcontent
  rw [h.first] at hfirst hbound
  have hcontig := hwf.contiguous
  rw [hfirst, hcontent] at hcontig
  have hgenesis : 1 ≤ s.first := s.genesis
  have hnext : s.first + dropped + (s.entries.drop dropped).length = s.next := by
    unfold HeldLog.next
    rw [List.length_drop]
    omega
  refine ⟨⟨_, _, hcontig, Nat.le_add_right_of_le hgenesis⟩,
    .reclaimThrough hdropped (fun entry hmem => ?_) rfl rfl, hwf, hfirst, hcontent, fun hacc => ?_,
    fun frontier hacc => ?_⟩
  · have hrun := s.run
    rw [← List.take_append_drop dropped s.entries] at hrun
    have hslot := (contiguousFrom_append.mp hrun).1.mem_slot hmem
    rw [List.length_take, Nat.min_eq_left hdropped] at hslot
    have := hbound (by omega)
    omega
  · exact hnext.trans (h.pristine (haccepted.symm.trans hacc))
  · show frontier + 1 = s.first + dropped + _ ∧ voidSlot < s.first + dropped + _ ∧
      s.first + dropped + _ < u64Bound
    rw [hnext]
    exact h.frontier frontier (haccepted.symm.trans hacc)

theorem Holds.call (h : l.Holds s) (call : LogCall) (hlegal : call.Legal l.accepted) :
    ∃ t, s.Takes call (l.call call).2 t ∧ (l.call call).1.Holds t := by
  cases call with
  | accept entries => exact h.accept entries
  | installSuffix start suffix => exact h.installSuffix hlegal
  | reclaimThrough checkpoint => exact h.reclaimThrough checkpoint

end LogData

theorem LogRun.holds {tailCapacity : Nat} {history : List (LogCall × Except JournalError Unit)}
    {l : LogData} (h : LogRun tailCapacity history l) :
    ∃ s, HeldLog.Run history s ∧ l.Holds s := by
  induction h with
  | start => exact ⟨_, .start, .start tailCapacity⟩
  | call h call hlegal ih =>
    obtain ⟨s, hrun, hholds⟩ := ih
    obtain ⟨t, htakes, hholds'⟩ := hholds.call call hlegal
    exact ⟨t, hrun.call htakes, hholds'⟩

/-- **The segmented log refines a list of entries.** Whatever the calls, every reader of the view
agrees with the list the same calls, with the same answers, make of the empty one, and a refused
call leaves log and view as they were. -/
theorem segmentedLog_refines {tailCapacity : Nat}
    {history : List (LogCall × Except JournalError Unit)} {l : LogData}
    (h : LogRun tailCapacity history l) :
    (∃ s, HeldLog.Run history s ∧ l.view.Shows s) ∧
      ∀ call error, (l.call call).2 = .error error →
        (l.call call).1 = l ∧ (l.call call).1.view = l.view := by
  obtain ⟨s, hrun, hholds⟩ := h.holds
  refine ⟨⟨s, hrun, hholds.shows⟩, fun call error herror => ?_⟩
  have hsame : ∀ outcome, (l.settled outcome).2 = .error error → (l.settled outcome).1 = l := by
    intro outcome hanswer
    cases outcome with
    | ok l' => cases hanswer
    | error refusal => rfl
  have hlog : (l.call call).1 = l := by
    cases call with
    | accept entries =>
      rw [l.call_accept] at herror ⊢
      exact hsame _ herror
    | installSuffix start suffix =>
      rw [l.call_installSuffix] at herror ⊢
      exact hsame _ herror
    | reclaimThrough checkpoint => cases herror
  exact ⟨hlog, by rw [hlog]⟩

/-- A batch sealed whole, a suffix that takes over inside it, and a slot let go. -/
theorem segmentedLog_refines_cut :
    ∃ l s, LogData.view l = ⟨[], [], [⟨2, 1, .system .halve⟩], 2, some 2⟩ ∧
      HeldLog.Run
        [(.accept [⟨1, 0, .system .void⟩, ⟨2, 1, .system .double⟩], .ok ()),
          (.installSuffix 2 [⟨2, 1, .system .halve⟩], .ok ()), (.reclaimThrough 1, .ok ())] s ∧
      l.view.Shows s := by
  have hstart : LogRun 2 [] (.withTailCapacity 2) := .start
  have hrun := (hstart.call
    (.accept [⟨1, 0, .system .void⟩, ⟨2, 1, .system .double⟩]) trivial).call
      (.installSuffix 2 [⟨2, 1, .system .halve⟩]) ⟨fun frontier h => by cases h; decide, rfl, trivial⟩
  have hrun := hrun.call (.reclaimThrough 1) trivial
  obtain ⟨⟨s, hheld, hshows⟩, -⟩ := segmentedLog_refines hrun
  exact ⟨_, s, rfl, hheld, hshows⟩

end UvrrCore
