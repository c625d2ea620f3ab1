import UvrrCore.Journal

/-!
# The segmented log

The journal of every host: sealed slabs with their boundary table, and a growing tail.
`LogData` is the record with the source's operations on it; `SegmentedLog` is a record that is
well formed: the boundary table describes the slabs, the content is one run of consecutive slots
from `firstSlot`, and the frontier is its end.

* `LogData.lookup_eq`: reading a slot is indexing the content.
* `accept`, `installSuffix` and `reclaimThrough` keep the form, so `SegmentedLog` is a
  `LawfulJournal`.
-/

namespace UvrrCore

structure LogData where
  slabs : List (List LogEntry)
  /-- The first slot and the length of each slab. -/
  boundaries : List (Nat × Nat)
  tail : List LogEntry
  tailCapacity : Nat
  /-- The first slot physically held. -/
  firstSlot : Nat
  accepted : Option Nat

/-- A run of entries from an expected slot, or the refusal of the first one out of place. -/
def checkRun : (expected : Nat) → List LogEntry → Except JournalError Unit
  | _, [] => .ok ()
  | expected, entry :: rest =>
    if entry.slot < expected then .error (.slotOccupied entry.slot)
    else if entry.slot ≠ expected then .error (.nonContiguous expected entry.slot)
    else
      match Slot.next entry.slot with
      | none => .error .slotExhausted
      | some next => checkRun next rest

namespace LogData

def withTailCapacity (tailCapacity : Nat) : LogData where
  slabs := []
  boundaries := []
  tail := []
  tailCapacity := max tailCapacity 1
  firstSlot := voidSlot
  accepted := none

def pushSlab (l : LogData) (slab : List LogEntry) : LogData :=
  match slab.head? with
  | none => l
  | some first =>
    { l with
      slabs := l.slabs ++ [slab], boundaries := l.boundaries ++ [(first.slot, slab.length)] }

def sealTail (l : LogData) : LogData := { l.pushSlab l.tail with tail := [] }

def pushTail (l : LogData) (entry : LogEntry) : LogData :=
  let l := if l.tailCapacity ≤ l.tail.length then l.sealTail else l
  { l with tail := l.tail ++ [entry] }

/-- The last slab that starts at or below a slot, with its boundary: the boundary table is
sorted, and the source searches it by bisection. -/
def slabAt (l : LogData) (slot : Nat) : Option ((Nat × Nat) × List LogEntry) :=
  ((l.boundaries.zip l.slabs).takeWhile fun b => decide (b.1.1 ≤ slot)).getLast?

/-- The slot at which the tail begins. -/
def tailStart (l : LogData) : Nat :=
  match l.boundaries.getLast? with
  | some (first, len) => first + len
  | none => l.firstSlot

def lookup (l : LogData) (slot : Nat) : Option LogEntry :=
  let inTail := if slot < l.tailStart then none else l.tail[slot - l.tailStart]?
  match l.slabAt slot with
  | some ((first, len), slab) => if slot - first < len then slab[slot - first]? else inTail
  | none => inTail

def retained (l : LogData) : Nat × Nat := (l.firstSlot, l.accepted.getD (u64Bound - 1))

/-- The slot an append must begin at. -/
def expectedNext (l : LogData) : Except JournalError Nat :=
  match l.accepted with
  | none => .ok l.firstSlot
  | some frontier =>
    match Slot.next frontier with
    | none => .error .slotExhausted
    | some next => .ok next

def accept (l : LogData) (entries : List LogEntry) : Except JournalError LogData :=
  match entries.getLast? with
  | none => .ok l
  | some last =>
    match l.expectedNext with
    | .error error => .error error
    | .ok expected =>
      match checkRun expected entries with
      | .error error => .error error
      | .ok () =>
        -- A batch at least a tail in size, offered to an empty tail, is sealed directly.
        let grown :=
          if l.tailCapacity ≤ entries.length ∧ l.tail = [] then l.pushSlab entries
          else entries.foldl pushTail l
        .ok { grown with accepted := some last.slot }

/-- The slabs below a cut with their boundaries; the slab the cut falls into is copied up to
it. -/
def cutSlabs (start : Nat) (boundaries : List (Nat × Nat)) (slabs : List (List LogEntry)) :
    List (Nat × Nat) × List (List LogEntry) :=
  let kept := (boundaries.takeWhile fun b => decide (b.1 < start)).length
  let boundaries := boundaries.take kept
  let slabs := slabs.take kept
  match boundaries.getLast?, slabs.getLast? with
  | some (first, len), some last =>
    if start ≤ first + (len - 1) then
      (boundaries.dropLast ++ [(first, start - first)],
       slabs.dropLast ++ [last.take (start - first)])
    else (boundaries, slabs)
  | _, _ => (boundaries, slabs)

/-- The slot a suffix must begin at: the cut, or the next slot when the cut is past it. -/
def expectedCut (l : LogData) (start : Nat) : Except JournalError Nat :=
  match l.accepted with
  | none => .ok start
  | some frontier =>
    if frontier < start then
      match Slot.next frontier with
      | none => .error .slotExhausted
      | some next => .ok next
    else .ok start

/-- A log that never held an entry begins at the cut. -/
def anchored (l : LogData) (start : Nat) : LogData :=
  if l.accepted.isNone then { l with firstSlot := start } else l

def installSuffix (l : LogData) (start : Nat) (suffix : List LogEntry) :
    Except JournalError LogData :=
  if start < l.firstSlot then .error (.belowRetention start l.firstSlot)
  else
    match l.expectedCut start with
    | .error error => .error error
    | .ok expected =>
      match checkRun expected suffix with
      | .error error => .error error
      | .ok () =>
        match suffix.getLast? with
        | none => .error .emptySuffix
        | some last =>
          let kept := cutSlabs start l.boundaries l.slabs
          .ok { l.anchored start with
            slabs := kept.2
            boundaries := kept.1
            tail := (l.tail.takeWhile fun entry => decide (entry.slot < start)) ++ suffix
            accepted := some last.slot }

/-- The first slot still held: of the first slab, else of the tail, else one past the
frontier. -/
def survivor (l : LogData) : Nat :=
  match l.boundaries.head? with
  | some b => b.1
  | none =>
    match l.tail.head? with
    | some entry => entry.slot
    | none =>
      match l.accepted with
      | some frontier => (Slot.next frontier).getD frontier
      | none => l.firstSlot

/-- The log with a covered tail sealed: a checkpoint at or past the frontier covers it. -/
def sealCovered (l : LogData) (checkpoint : Nat) : LogData :=
  match l.accepted with
  | some frontier => if frontier ≤ checkpoint then l.sealTail else l
  | none => l

/-- The slabs wholly at or below the checkpoint let go. -/
def reclaimThrough (l : LogData) (checkpoint : Nat) : LogData :=
  let sealed := l.sealCovered checkpoint
  let covered :=
    (sealed.boundaries.takeWhile fun b => decide (b.1 + (b.2 - 1) ≤ checkpoint)).length
  let kept :=
    { sealed with
      slabs := sealed.slabs.drop covered, boundaries := sealed.boundaries.drop covered }
  { kept with firstSlot := kept.survivor }

/-! ### Well-formedness -/

/-- Everything held, in slot order. -/
def content (l : LogData) : List LogEntry := l.slabs.flatten ++ l.tail

/-- Each slab is a non-empty run from its boundary, and the next slab begins where it ends. -/
def SlabsFrom : (first : Nat) → List (Nat × Nat) → List (List LogEntry) → Prop
  | _, [], [] => True
  | first, (start, len) :: boundaries, slab :: slabs =>
    start = first ∧ len = slab.length ∧ 0 < slab.length ∧
      SlabsFrom (first + slab.length) boundaries slabs
  | _, _, _ => False

structure WellFormed (l : LogData) : Prop where
  slabs : SlabsFrom l.firstSlot l.boundaries l.slabs
  contiguous : ContiguousFrom l.firstSlot l.content
  frontier : match l.accepted with
    | none => l.content = []
    | some frontier => frontier + 1 = l.firstSlot + l.content.length ∧ frontier + 1 < u64Bound
  capacity : 0 < l.tailCapacity

/-! ### Slabs -/

theorem SlabsFrom.append {first : Nat} {bs cs : List (Nat × Nat)}
    {ss ts : List (List LogEntry)} (h : SlabsFrom first bs ss)
    (h' : SlabsFrom (first + ss.flatten.length) cs ts) : SlabsFrom first (bs ++ cs) (ss ++ ts) := by
  induction bs generalizing first ss with
  | nil =>
    cases ss with
    | nil => simpa using h'
    | cons s ss => exact absurd h (by simp [SlabsFrom])
  | cons b bs ih =>
    obtain ⟨start, len⟩ := b
    cases ss with
    | nil => exact absurd h (by simp [SlabsFrom])
    | cons s ss =>
      obtain ⟨h1, h2, h3, h4⟩ := h
      refine ⟨h1, h2, h3, ih h4 ?_⟩
      rw [List.flatten_cons, List.length_append] at h'
      rwa [Nat.add_assoc]

/-- The search among the slabs finds what indexing their content finds, and finds nothing for
a slot past them. -/
theorem SlabsFrom.search {first : Nat} {bs : List (Nat × Nat)} {ss : List (List LogEntry)}
    (h : SlabsFrom first bs ss) (slot : Nat) :
    match ((bs.zip ss).takeWhile fun b => decide (b.1.1 ≤ slot)).getLast? with
    | none => slot < first ∨ ss = []
    | some ((start, len), slab) =>
      first ≤ slot ∧
        (slot < first + ss.flatten.length →
          slot - start < len ∧ slab[slot - start]? = ss.flatten[slot - first]?) ∧
        (first + ss.flatten.length ≤ slot → ¬slot - start < len) := by
  induction bs generalizing first ss with
  | nil =>
    cases ss with
    | nil => simp
    | cons s ss => exact absurd h (by simp [SlabsFrom])
  | cons b bs ih =>
    obtain ⟨start, len⟩ := b
    cases ss with
    | nil => exact absurd h (by simp [SlabsFrom])
    | cons s ss =>
      obtain ⟨rfl, rfl, hpos, hrest⟩ := h
      have hind := ih hrest
      rw [List.zip_cons_cons, List.takeWhile_cons, List.flatten_cons, List.length_append]
      by_cases hle : start ≤ slot
      · rw [if_pos (by simpa using hle), List.getLast?_cons]
        cases hlast : ((bs.zip ss).takeWhile fun b => decide (b.1.1 ≤ slot)).getLast? with
        | none =>
          rw [hlast] at hind
          simp only [Option.getD_none]
          have hempty : slot < start + s.length ∨ ss.flatten = [] := by
            rcases hind with hlt | hnil
            · exact Or.inl hlt
            · exact Or.inr (by rw [hnil, List.flatten_nil])
          refine ⟨hle, ?_, ?_⟩
          · intro hlt
            have hin : slot - start < s.length := by
              rcases hempty with h | h
              · omega
              · rw [h, List.length_nil] at hlt
                omega
            exact ⟨hin, by rw [List.getElem?_append_left hin]⟩
          · intro hge
            omega
        | some found =>
          obtain ⟨⟨start', len'⟩, slab⟩ := found
          rw [hlast] at hind
          simp only [Option.getD_some]
          obtain ⟨h1, h2, h3⟩ := hind
          refine ⟨hle, ?_, ?_⟩
          · intro hlt
            obtain ⟨h4, h5⟩ := h2 (by omega)
            refine ⟨h4, ?_⟩
            rw [h5, List.getElem?_append_right (by omega)]
            congr 1
            omega
          · intro hge
            exact h3 (by omega)
      · rw [if_neg (by simpa using hle), List.getLast?_nil]
        simp only
        omega

theorem SlabsFrom.end_eq {first : Nat} {bs : List (Nat × Nat)} {ss : List (List LogEntry)}
    (h : SlabsFrom first bs ss) :
    (match bs.getLast? with
      | some (start, len) => start + len
      | none => first) = first + ss.flatten.length := by
  induction bs generalizing first ss with
  | nil =>
    cases ss with
    | nil => simp
    | cons s ss => exact absurd h (by simp [SlabsFrom])
  | cons b bs ih =>
    obtain ⟨start, len⟩ := b
    cases ss with
    | nil => exact absurd h (by simp [SlabsFrom])
    | cons s ss =>
      obtain ⟨rfl, rfl, hpos, hrest⟩ := h
      have hind := ih hrest
      rw [List.getLast?_cons, List.flatten_cons, List.length_append, ← Nat.add_assoc, ← hind]
      cases bs.getLast? with
      | none => simp
      | some last => simp

theorem SlabsFrom.length_eq {first : Nat} {bs : List (Nat × Nat)} {ss : List (List LogEntry)}
    (h : SlabsFrom first bs ss) : bs.length = ss.length := by
  induction bs generalizing first ss with
  | nil =>
    cases ss with
    | nil => rfl
    | cons s ss => exact absurd h (by simp [SlabsFrom])
  | cons b bs ih =>
    cases ss with
    | nil => exact absurd h (by simp [SlabsFrom])
    | cons s ss =>
      obtain ⟨-, -, -, hrest⟩ := h
      rw [List.length_cons, List.length_cons, ih hrest]

/-- A cut past the first slab's start that no later slab begins below stays in it. -/
theorem cutSlabs_head {start first len : Nat} {bs : List (Nat × Nat)} {s : List LogEntry}
    {ss : List (List LogEntry)} (hlt : first < start)
    (hbs : (bs.takeWhile fun b => decide (b.1 < start)) = []) :
    cutSlabs start ((first, len) :: bs) (s :: ss) =
      if start ≤ first + (len - 1) then ([(first, start - first)], [s.take (start - first)])
      else ([(first, len)], [s]) := by
  unfold cutSlabs
  simp only [List.takeWhile_cons, decide_eq_true_eq, if_pos hlt, hbs, List.length_cons,
    List.length_nil, Nat.zero_add, List.take_succ_cons, List.take_zero, List.getLast?_singleton,
    List.dropLast_singleton, List.nil_append]

/-- A cut that a later slab begins below keeps the first slab. -/
theorem cutSlabs_tail {start first len : Nat} {bs : List (Nat × Nat)} {s : List LogEntry}
    {ss : List (List LogEntry)} (hlt : first < start) (hlen : bs.length = ss.length)
    (hbs : (bs.takeWhile fun b => decide (b.1 < start)) ≠ []) :
    cutSlabs start ((first, len) :: bs) (s :: ss) =
      ((first, len) :: (cutSlabs start bs ss).1, s :: (cutSlabs start bs ss).2) := by
  cases bs with
  | nil => exact absurd rfl hbs
  | cons c cs =>
    cases ss with
    | nil => simp at hlen
    | cons t ts =>
      have hc : c.1 < start := by
        by_contra hc
        exact hbs (by simp [hc])
      unfold cutSlabs
      simp only [List.takeWhile_cons, decide_eq_true_eq, if_pos hlt, if_pos hc, List.length_cons,
        List.take_succ_cons, List.getLast?_cons_cons]
      obtain ⟨lastB, hlastB⟩ : ∃ b, (c :: cs.take
          (cs.takeWhile fun b => decide (b.1 < start)).length).getLast? = some b := by
        simp [List.getLast?_cons]
      obtain ⟨lastS, hlastS⟩ : ∃ b, (t :: ts.take
          (cs.takeWhile fun b => decide (b.1 < start)).length).getLast? = some b := by
        simp [List.getLast?_cons]
      simp only [hlastB, hlastS]
      split
      · simp only [List.dropLast_cons_cons, List.cons_append]
      · rfl

/-- Cutting the slabs takes the front of their content and keeps their form. -/
theorem SlabsFrom.cut {first : Nat} {bs : List (Nat × Nat)} {ss : List (List LogEntry)}
    (h : SlabsFrom first bs ss) (start : Nat) :
    SlabsFrom first (cutSlabs start bs ss).1 (cutSlabs start bs ss).2 ∧
      (cutSlabs start bs ss).2.flatten = ss.flatten.take (start - first) := by
  induction bs generalizing first ss with
  | nil =>
    cases ss with
    | nil => simp [cutSlabs, SlabsFrom]
    | cons s ss => exact absurd h (by simp [SlabsFrom])
  | cons b bs ih =>
    obtain ⟨first', len⟩ := b
    cases ss with
    | nil => exact absurd h (by simp [SlabsFrom])
    | cons s ss =>
      obtain ⟨rfl, rfl, hpos, hrest⟩ := h
      by_cases hlt : first' < start
      · by_cases hbs : (bs.takeWhile fun b => decide (b.1 < start)) = []
        · have hend : start ≤ first' + s.length ∨ ss = [] := by
            cases bs with
            | nil =>
              cases ss with
              | nil => exact Or.inr rfl
              | cons t ts => exact absurd hrest (by simp [SlabsFrom])
            | cons c cs =>
              cases ss with
              | nil => exact Or.inr rfl
              | cons t ts =>
                have hc : ¬c.1 < start := by
                  intro hc
                  simp [hc] at hbs
                have := hrest.1
                exact Or.inl (by omega)
          rw [cutSlabs_head hlt hbs, List.flatten_cons]
          split
          · rename_i hin
            have htake : start - first' ≤ s.length := by omega
            simp only [SlabsFrom, List.length_take, List.flatten_singleton, true_and, and_true]
            refine ⟨⟨by omega, by omega⟩, ?_⟩
            rw [List.take_append_of_le_length htake]
          · rename_i hout
            simp only [SlabsFrom, List.flatten_singleton, true_and, and_true]
            refine ⟨hpos, ?_⟩
            rcases hend with hend | rfl
            · rw [show start - first' = s.length by omega, List.take_left]
            · rw [List.flatten_nil, List.append_nil, List.take_of_length_le (by omega)]
        · obtain ⟨c, hcmem, hclt⟩ : ∃ c, bs.head? = some c ∧ c.1 < start := by
            cases bs with
            | nil => exact absurd rfl hbs
            | cons c cs =>
              refine ⟨c, rfl, ?_⟩
              by_contra hc
              exact hbs (by simp [hc])
          have hstart : first' + s.length < start := by
            cases bs with
            | nil => cases hcmem
            | cons d ds =>
              cases ss with
              | nil => exact absurd hrest (by simp [SlabsFrom])
              | cons t ts =>
                have := hrest.1
                simp only [List.head?_cons, Option.some.injEq] at hcmem
                subst hcmem
                omega
          rw [cutSlabs_tail hlt hrest.length_eq hbs]
          obtain ⟨hform, hflat⟩ := ih hrest
          refine ⟨⟨rfl, rfl, hpos, hform⟩, ?_⟩
          have hs : s.take (start - first') = s := List.take_of_length_le (by omega)
          rw [List.flatten_cons, hflat, List.flatten_cons, List.take_append, hs, Nat.sub_sub]
      · rw [cutSlabs]
        simp only [List.takeWhile_cons, decide_eq_true_eq, if_neg hlt, List.length_nil,
          List.take_zero, List.getLast?_nil]
        rw [show start - first' = 0 by omega]
        simp [SlabsFrom]

/-! ### Reading -/

theorem WellFormed.tailStart_eq {l : LogData} (h : l.WellFormed) :
    l.tailStart = l.firstSlot + l.slabs.flatten.length := h.slabs.end_eq

/-- **Reading a slot is reading the content.** -/
theorem WellFormed.lookup_eq {l : LogData} (h : l.WellFormed) (slot : Nat) :
    l.lookup slot = entryAt l.content slot := by
  rw [h.contiguous.entryAt_eq]
  have hsearch := h.slabs.search slot
  unfold lookup slabAt
  rw [h.tailStart_eq]
  cases hlast : ((l.boundaries.zip l.slabs).takeWhile fun b => decide (b.1.1 ≤ slot)).getLast? with
  | none =>
    rw [hlast] at hsearch
    simp only
    rcases hsearch with hlt | hnil
    · rw [if_pos (by omega), if_pos hlt]
    · unfold content
      simp only [hnil, List.flatten_nil, List.length_nil, Nat.add_zero, List.nil_append]
  | some found =>
    obtain ⟨⟨start, len⟩, slab⟩ := found
    rw [hlast] at hsearch
    obtain ⟨hge, hin, hout⟩ := hsearch
    simp only
    rw [if_neg (show ¬slot < l.firstSlot by omega)]
    unfold content
    by_cases hlt : slot < l.firstSlot + l.slabs.flatten.length
    · obtain ⟨hlen, heq⟩ := hin hlt
      rw [if_pos hlen, heq, List.getElem?_append_left (by omega)]
    · rw [if_neg (hout (by omega)), if_neg hlt, List.getElem?_append_right (by omega)]
      congr 1
      omega

/-! ### Appending -/

theorem checkRun_ok {expected : Nat} {entries : List LogEntry}
    (h : checkRun expected entries = .ok ()) :
    ContiguousFrom expected entries ∧ (entries ≠ [] → expected + entries.length < u64Bound) := by
  induction entries generalizing expected with
  | nil => exact ⟨trivial, fun h => absurd rfl h⟩
  | cons entry rest ih =>
    simp only [checkRun] at h
    split at h
    · cases h
    · split at h
      · cases h
      · rename_i hne
        rw [not_not] at hne
        cases hnext : Slot.next entry.slot with
        | none => simp [hnext] at h
        | some next =>
          rw [hnext] at h
          rw [Slot.next_eq_some] at hnext
          obtain ⟨hbound, rfl⟩ := hnext
          rw [hne] at h
          obtain ⟨hrun, hlen⟩ := ih h
          refine ⟨⟨hne, hrun⟩, fun _ => ?_⟩
          cases rest with
          | nil =>
            rw [List.length_singleton]
            omega
          | cons r rs =>
            have := hlen (by simp)
            simp only [List.length_cons] at this ⊢
            omega

/-- A run that leaves a slot behind it is no run out of place. -/
theorem checkRun_of_contiguous {expected : Nat} {entries : List LogEntry}
    (hrun : ContiguousFrom expected entries)
    (hbound : entries ≠ [] → expected + entries.length < u64Bound) :
    checkRun expected entries = .ok () := by
  induction entries generalizing expected with
  | nil => rfl
  | cons entry rest ih =>
    obtain ⟨hslot, hrest⟩ := hrun
    have hlen := hbound (List.cons_ne_nil _ _)
    rw [List.length_cons] at hlen
    have hnext : Slot.next entry.slot = some (expected + 1) :=
      Slot.next_eq_some.mpr ⟨by omega, by omega⟩
    rw [checkRun, if_neg (by omega), if_neg (not_not.mpr hslot), hnext]
    exact ih hrest fun _ => by omega

/-- Everything of well-formedness but the frontier: what the internal moves keep. -/
structure Stacked (l : LogData) : Prop where
  slabs : SlabsFrom l.firstSlot l.boundaries l.slabs
  contiguous : ContiguousFrom l.firstSlot l.content
  capacity : 0 < l.tailCapacity

theorem WellFormed.stacked {l : LogData} (h : l.WellFormed) : l.Stacked :=
  ⟨h.slabs, h.contiguous, h.capacity⟩

/-- Pushing a run that continues the slabs, with no tail behind them. -/
theorem Stacked.pushSlab {l : LogData} (h : SlabsFrom l.firstSlot l.boundaries l.slabs)
    {slab : List LogEntry}
    (hrun : ContiguousFrom (l.firstSlot + l.slabs.flatten.length) slab) :
    SlabsFrom l.firstSlot (l.pushSlab slab).boundaries (l.pushSlab slab).slabs ∧
      (l.pushSlab slab).slabs.flatten = l.slabs.flatten ++ slab := by
  unfold LogData.pushSlab
  cases slab with
  | nil => exact ⟨h, by simp⟩
  | cons entry rest =>
    simp only [List.head?_cons]
    refine ⟨h.append ?_, by simp⟩
    exact ⟨hrun.1, rfl, by simp, trivial⟩

@[simp] theorem pushSlab_firstSlot (l : LogData) (slab : List LogEntry) :
    (l.pushSlab slab).firstSlot = l.firstSlot := by
  unfold pushSlab
  cases slab.head? <;> rfl

@[simp] theorem pushSlab_tail (l : LogData) (slab : List LogEntry) :
    (l.pushSlab slab).tail = l.tail := by
  unfold pushSlab
  cases slab.head? <;> rfl

@[simp] theorem pushSlab_tailCapacity (l : LogData) (slab : List LogEntry) :
    (l.pushSlab slab).tailCapacity = l.tailCapacity := by
  unfold pushSlab
  cases slab.head? <;> rfl

@[simp] theorem pushSlab_accepted (l : LogData) (slab : List LogEntry) :
    (l.pushSlab slab).accepted = l.accepted := by
  unfold pushSlab
  cases slab.head? <;> rfl

@[simp] theorem sealTail_firstSlot (l : LogData) : l.sealTail.firstSlot = l.firstSlot :=
  pushSlab_firstSlot l l.tail

@[simp] theorem sealTail_accepted (l : LogData) : l.sealTail.accepted = l.accepted :=
  pushSlab_accepted l l.tail

theorem Stacked.sealTail {l : LogData} (h : l.Stacked) :
    l.sealTail.Stacked ∧ l.sealTail.content = l.content := by
  have hsplit := contiguousFrom_append.mp h.contiguous
  obtain ⟨hslabs, hflat⟩ := Stacked.pushSlab h.slabs hsplit.2
  have hcontent : l.sealTail.content = l.content := by
    unfold content LogData.sealTail
    simp only [hflat, List.append_nil]
  refine ⟨⟨?_, ?_, ?_⟩, hcontent⟩
  · rw [sealTail_firstSlot]
    exact hslabs
  · rw [hcontent, sealTail_firstSlot]
    exact h.contiguous
  · show 0 < (l.pushSlab l.tail).tailCapacity
    rw [pushSlab_tailCapacity]
    exact h.capacity

theorem Stacked.pushTail {l : LogData} (h : l.Stacked) {entry : LogEntry}
    (hslot : entry.slot = l.firstSlot + l.content.length) :
    (l.pushTail entry).Stacked ∧ (l.pushTail entry).content = l.content ++ [entry] ∧
      (l.pushTail entry).firstSlot = l.firstSlot := by
  obtain ⟨hseal, hcontent⟩ := h.sealTail
  have push : ∀ m : LogData, m.Stacked → m.content = l.content → m.firstSlot = l.firstSlot →
      ({ m with tail := m.tail ++ [entry] } : LogData).Stacked ∧
        ({ m with tail := m.tail ++ [entry] } : LogData).content = l.content ++ [entry] ∧
        ({ m with tail := m.tail ++ [entry] } : LogData).firstSlot = l.firstSlot := by
    intro m hm hmc hmf
    have hnew : ({ m with tail := m.tail ++ [entry] } : LogData).content = l.content ++ [entry] := by
      rw [← hmc]
      simp [content]
    refine ⟨⟨hm.slabs, ?_, hm.capacity⟩, hnew, hmf⟩
    rw [hnew]
    refine contiguousFrom_append.mpr ⟨hmc ▸ hm.contiguous, ?_, trivial⟩
    rw [hslot, hmf]
  unfold LogData.pushTail
  split
  · exact push l.sealTail hseal hcontent (sealTail_firstSlot l)
  · exact push l h rfl rfl

theorem Stacked.pushAll {l : LogData} (h : l.Stacked) {entries : List LogEntry}
    (hrun : ContiguousFrom (l.firstSlot + l.content.length) entries) :
    (entries.foldl LogData.pushTail l).Stacked ∧
      (entries.foldl LogData.pushTail l).content = l.content ++ entries ∧
      (entries.foldl LogData.pushTail l).firstSlot = l.firstSlot := by
  induction entries generalizing l with
  | nil => exact ⟨h, by simp, rfl⟩
  | cons entry rest ih =>
    obtain ⟨hslot, hrest⟩ := hrun
    obtain ⟨h1, h2, h3⟩ := h.pushTail hslot
    rw [List.foldl_cons]
    have hrest' : ContiguousFrom ((l.pushTail entry).firstSlot + (l.pushTail entry).content.length)
        rest := by
      rw [h2, h3, List.length_append, List.length_singleton, ← Nat.add_assoc]
      exact hrest
    obtain ⟨h4, h5, h6⟩ := ih h1 hrest'
    exact ⟨h4, by rw [h5, h2, List.append_assoc, List.singleton_append], by rw [h6, h3]⟩

/-- The batch of an append behind the content: sealed directly or pushed entry by entry. -/
theorem Stacked.append {l : LogData} (h : l.Stacked) {entries : List LogEntry}
    (hrun : ContiguousFrom (l.firstSlot + l.content.length) entries) (l' : LogData)
    (hl' : l' = if l.tailCapacity ≤ entries.length ∧ l.tail = [] then l.pushSlab entries
      else entries.foldl LogData.pushTail l) :
    l'.Stacked ∧ l'.content = l.content ++ entries ∧ l'.firstSlot = l.firstSlot := by
  rw [hl']
  split
  · rename_i hdirect
    have hcontent : l.content = l.slabs.flatten := by
      unfold content
      rw [hdirect.2, List.append_nil]
    rw [hcontent] at hrun
    obtain ⟨h1, h2⟩ := Stacked.pushSlab h.slabs hrun
    have hnew : (l.pushSlab entries).content = l.content ++ entries := by
      rw [hcontent]
      unfold content
      rw [pushSlab_tail, hdirect.2, List.append_nil, h2]
    refine ⟨⟨?_, ?_, ?_⟩, hnew, pushSlab_firstSlot l entries⟩
    · rw [pushSlab_firstSlot]
      exact h1
    · rw [hnew, pushSlab_firstSlot]
      exact contiguousFrom_append.mpr ⟨h.contiguous, hcontent ▸ hrun⟩
    · rw [pushSlab_tailCapacity]
      exact h.capacity
  · exact h.pushAll hrun

/-- The next slot to be journaled. -/
def nextSlot (l : LogData) : Nat := l.firstSlot + l.content.length

theorem WellFormed.expectedNext {l : LogData} (h : l.WellFormed) {expected : Nat}
    (hok : l.expectedNext = .ok expected) : expected = l.nextSlot := by
  have hfrontier := h.frontier
  unfold LogData.expectedNext at hok
  unfold nextSlot
  cases hacc : l.accepted with
  | none =>
    rw [hacc] at hfrontier hok
    rw [hfrontier, ← Except.ok.inj hok]
    rfl
  | some frontier =>
    rw [hacc] at hfrontier hok
    simp only at hok
    split at hok
    · cases hok
    · rename_i next hnext
      rw [Slot.next_eq_some] at hnext
      rw [← Except.ok.inj hok, hnext.2, hfrontier.1]

/-- **What an accepted batch does.** It continues the content and moves the frontier. -/
theorem WellFormed.accept {l l' : LogData} (h : l.WellFormed) {entries : List LogEntry}
    (hne : entries ≠ []) (hok : l.accept entries = .ok l') :
    l'.WellFormed ∧ l'.content = l.content ++ entries ∧ l'.firstSlot = l.firstSlot ∧
      ContiguousFrom l.nextSlot entries ∧
      l'.accepted = some (l.nextSlot + entries.length - 1) := by
  unfold LogData.accept at hok
  split at hok
  · rename_i hlast
    exact absurd (List.getLast?_eq_none_iff.mp hlast) hne
  rename_i last hlast
  split at hok
  · cases hok
  rename_i expected hexpected
  rw [h.expectedNext hexpected] at hok
  split at hok
  · cases hok
  rename_i hcheck
  obtain rfl := Except.ok.inj hok
  obtain ⟨hrun, hbound⟩ := checkRun_ok hcheck
  obtain ⟨hstacked, hcontent, hfirst⟩ := h.stacked.append hrun _ rfl
  have hslot := hrun.getLast?_slot hlast
  refine ⟨⟨hstacked.slabs, hstacked.contiguous, ⟨?_, ?_⟩, hstacked.capacity⟩, hcontent, hfirst,
    hrun, ?_⟩
  · show last.slot + 1 = _ + List.length (content _)
    unfold content at hcontent ⊢
    simp only [hcontent, hfirst]
    rw [hslot, List.length_append]
    unfold nextSlot content
    omega
  · rw [hslot]
    exact hbound hne
  · show some last.slot = _
    rw [← hslot, Nat.add_sub_cancel]

theorem accept_nil (l : LogData) : l.accept [] = .ok l := rfl

/-! ### Installing -/

theorem takeWhile_lt_of_contiguous {first : Nat} {xs : List LogEntry}
    (h : ContiguousFrom first xs) (start : Nat) :
    (xs.takeWhile fun entry => decide (entry.slot < start)) = xs.take (start - first) := by
  induction xs generalizing first with
  | nil => simp
  | cons x xs ih =>
    obtain ⟨hx, hrest⟩ := h
    rw [List.takeWhile_cons, hx]
    by_cases hlt : first < start
    · rw [if_pos (by simpa using hlt), ih hrest,
        show start - first = start - (first + 1) + 1 by omega, List.take_succ_cons]
    · rw [if_neg (by simpa using hlt), show start - first = 0 by omega, List.take_zero]

theorem SlabsFrom.of_flatten_nil {first : Nat} {bs : List (Nat × Nat)}
    {ss : List (List LogEntry)} (h : SlabsFrom first bs ss) (hnil : ss.flatten = []) :
    bs = [] ∧ ss = [] := by
  cases bs with
  | nil =>
    cases ss with
    | nil => exact ⟨rfl, rfl⟩
    | cons s ss => exact absurd h (by simp [SlabsFrom])
  | cons b bs =>
    cases ss with
    | nil => exact absurd h (by simp [SlabsFrom])
    | cons s ss =>
      obtain ⟨-, -, hpos, -⟩ := h
      rw [List.flatten_cons, List.append_eq_nil_iff] at hnil
      rw [hnil.1] at hpos
      cases hpos

/-- A log without a frontier holds nothing, so it may begin anywhere. -/
theorem WellFormed.anchored {l : LogData} (h : l.WellFormed) (start : Nat) :
    (l.anchored start).Stacked ∧ (l.anchored start).content = l.content := by
  unfold LogData.anchored
  have hfrontier := h.frontier
  cases hacc : l.accepted with
  | none =>
    rw [hacc] at hfrontier
    have hempty := List.append_eq_nil_iff.mp hfrontier
    obtain ⟨hbs, hss⟩ := h.slabs.of_flatten_nil hempty.1
    simp only [Option.isNone_none, if_true]
    refine ⟨⟨?_, ?_, h.capacity⟩, rfl⟩
    · rw [hbs, hss]
      trivial
    · show ContiguousFrom start (l.slabs.flatten ++ l.tail)
      rw [hempty.1, hempty.2]
      trivial
  | some frontier =>
    rw [if_neg (by simp)]
    exact ⟨h.stacked, rfl⟩

/-- The cut a suffix takes over from: never below the anchor, never past the content. -/
theorem WellFormed.expectedCut {l : LogData} (h : l.WellFormed) {start base : Nat}
    (hret : l.firstSlot ≤ start) (hok : l.expectedCut start = .ok base) :
    (base = match l.accepted with | none => start | some frontier => min start (frontier + 1)) ∧
      (l.anchored start).firstSlot ≤ base ∧
      base - (l.anchored start).firstSlot ≤ l.content.length ∧
      l.content.take (start - (l.anchored start).firstSlot) =
        l.content.take (base - (l.anchored start).firstSlot) := by
  have hfrontier := h.frontier
  unfold LogData.expectedCut at hok
  unfold LogData.anchored
  cases hacc : l.accepted with
  | none =>
    rw [hacc] at hok
    obtain rfl := Except.ok.inj hok
    simp
  | some frontier =>
    rw [hacc] at hok hfrontier
    obtain ⟨hend, hbound⟩ := hfrontier
    have hbase : base = min start (frontier + 1) := by
      simp only at hok
      split at hok
      · split at hok
        · cases hok
        · rename_i next hnext
          rw [Slot.next_eq_some] at hnext
          rw [← Except.ok.inj hok, hnext.2, Nat.min_eq_right (by omega)]
      · rw [← Except.ok.inj hok, Nat.min_eq_left (by omega)]
    rw [if_neg (by simp)]
    refine ⟨hbase, by omega, by omega, ?_⟩
    by_cases hlt : start ≤ frontier + 1
    · rw [hbase, Nat.min_eq_left hlt]
    · rw [List.take_of_length_le (by omega), List.take_of_length_le (by omega)]

/-- **What an installed suffix does.** It takes over from its first slot and keeps the content
below it. -/
theorem WellFormed.installSuffix {l l' : LogData} (h : l.WellFormed) {start : Nat}
    {suffix : List LogEntry} (hok : l.installSuffix start suffix = .ok l') :
    ∃ base,
      (base = match l.accepted with
        | none => start
        | some frontier => min start (frontier + 1)) ∧
      l'.WellFormed ∧ suffix ≠ [] ∧ l.firstSlot ≤ start ∧ ContiguousFrom base suffix ∧
      l'.firstSlot = (l.anchored start).firstSlot ∧
      l'.content = l.content.take (base - l'.firstSlot) ++ suffix ∧
      l'.accepted = some (base + suffix.length - 1) := by
  unfold LogData.installSuffix at hok
  split at hok
  · cases hok
  rename_i hret
  rw [Nat.not_lt] at hret
  split at hok
  · cases hok
  rename_i base hcut
  obtain ⟨hbase, hle, hlen, htake⟩ := h.expectedCut hret hcut
  split at hok
  · cases hok
  rename_i hcheck
  obtain ⟨hrun, hbound⟩ := checkRun_ok hcheck
  split at hok
  · cases hok
  rename_i last hlast
  have hne : suffix ≠ [] := by
    rintro rfl
    cases hlast
  have hslot := hrun.getLast?_slot hlast
  obtain ⟨hstacked, hcontent⟩ := h.anchored start
  have hparts : (l.anchored start).slabs = l.slabs ∧ (l.anchored start).tail = l.tail ∧
      (l.anchored start).boundaries = l.boundaries := by
    unfold LogData.anchored
    split <;> exact ⟨rfl, rfl, rfl⟩
  obtain ⟨hslabsEq, htailEq, hboundsEq⟩ := hparts
  have hslabs := hstacked.slabs
  have hcontig := hstacked.contiguous
  unfold content at hcontig
  rw [hslabsEq, hboundsEq] at hslabs
  rw [hslabsEq, htailEq] at hcontig
  obtain ⟨hform, hflat⟩ := hslabs.cut start
  -- Slabs and tail are cut at the same slot, so together they keep the front of the content.
  have hkept : (cutSlabs start l.boundaries l.slabs).2.flatten ++
      ((l.tail.takeWhile fun entry => decide (entry.slot < start)) ++ suffix) =
        l.content.take (base - (l.anchored start).firstSlot) ++ suffix := by
    rw [hflat, takeWhile_lt_of_contiguous (contiguousFrom_append.mp hcontig).2, ← htake,
      ← List.append_assoc]
    unfold content
    rw [List.take_append, Nat.sub_sub]
  have hfront : ContiguousFrom (l.anchored start).firstSlot
      (l.content.take (base - (l.anchored start).firstSlot)) := by
    have hall : ContiguousFrom (l.anchored start).firstSlot l.content := hcontig
    rw [← List.take_append_drop (base - (l.anchored start).firstSlot) l.content] at hall
    exact (contiguousFrom_append.mp hall).1
  have hfrontLen : (l.content.take (base - (l.anchored start).firstSlot)).length =
      base - (l.anchored start).firstSlot := by
    rw [List.length_take]
    exact Nat.min_eq_left hlen
  obtain rfl := Except.ok.inj hok
  refine ⟨base, hbase, ⟨hform, ?_, ⟨?_, ?_⟩, hstacked.capacity⟩, hne, hret, hrun, rfl, hkept, ?_⟩
  · show ContiguousFrom _ (_ ++ _)
    rw [hkept]
    refine contiguousFrom_append.mpr ⟨hfront, ?_⟩
    rw [hfrontLen, Nat.add_sub_of_le hle]
    exact hrun
  · show last.slot + 1 = _ + List.length (_ ++ _)
    rw [hkept, List.length_append, hfrontLen, hslot]
    show base + _ = (l.anchored start).firstSlot + _
    omega
  · rw [hslot]
    exact hbound hne
  · show some last.slot = _
    rw [← hslot, Nat.add_sub_cancel]

/-! ### Reclaiming -/

theorem WellFormed.sealCovered {l : LogData} (h : l.WellFormed) (checkpoint : Nat) :
    (l.sealCovered checkpoint).WellFormed ∧ (l.sealCovered checkpoint).content = l.content ∧
      (l.sealCovered checkpoint).firstSlot = l.firstSlot ∧
      (l.sealCovered checkpoint).accepted = l.accepted := by
  unfold LogData.sealCovered
  cases hacc : l.accepted with
  | none => exact ⟨h, rfl, rfl, hacc⟩
  | some frontier =>
    simp only
    split
    · obtain ⟨hstacked, hcontent⟩ := h.stacked.sealTail
      refine ⟨⟨hstacked.slabs, hstacked.contiguous, ?_, hstacked.capacity⟩, hcontent,
        sealTail_firstSlot l, by rw [sealTail_accepted, hacc]⟩
      rw [hcontent, sealTail_accepted, sealTail_firstSlot]
      exact h.frontier
    · exact ⟨h, rfl, rfl, hacc⟩

/-- Dropping the slabs that end at or below a checkpoint drops the front of the content, none
of it above the checkpoint. -/
theorem SlabsFrom.dropCovered {first : Nat} {bs : List (Nat × Nat)}
    {ss : List (List LogEntry)} (h : SlabsFrom first bs ss) (checkpoint : Nat) :
    ∃ dropped, dropped ≤ ss.flatten.length ∧
      (0 < dropped → first + dropped ≤ checkpoint + 1) ∧
      SlabsFrom (first + dropped)
        (bs.drop (bs.takeWhile fun b => decide (b.1 + (b.2 - 1) ≤ checkpoint)).length)
        (ss.drop (bs.takeWhile fun b => decide (b.1 + (b.2 - 1) ≤ checkpoint)).length) ∧
      (ss.drop (bs.takeWhile fun b => decide (b.1 + (b.2 - 1) ≤ checkpoint)).length).flatten =
        ss.flatten.drop dropped := by
  induction bs generalizing first ss with
  | nil =>
    refine ⟨0, Nat.zero_le _, by omega, ?_, by simp⟩
    simpa using h
  | cons b bs ih =>
    obtain ⟨start, len⟩ := b
    cases ss with
    | nil => exact absurd h (by simp [SlabsFrom])
    | cons s ss =>
      have hfull := h
      obtain ⟨rfl, rfl, hpos, hrest⟩ := h
      by_cases hcov : start + (s.length - 1) ≤ checkpoint
      · obtain ⟨dropped, hle, hbound, hform, hflat⟩ := ih hrest
        rw [List.takeWhile_cons, if_pos (by simpa using hcov), List.length_cons,
          List.drop_succ_cons, List.drop_succ_cons, List.flatten_cons]
        refine ⟨s.length + dropped, ?_, ?_, ?_, ?_⟩
        · rw [List.length_append]
          omega
        · omega
        · rw [← Nat.add_assoc]
          exact hform
        · have hs : s.drop (s.length + dropped) = [] := List.drop_of_length_le (by omega)
          rw [hflat, List.drop_append, hs, List.nil_append, Nat.add_sub_cancel_left]
      · rw [List.takeWhile_cons, if_neg (by simpa using hcov)]
        exact ⟨0, Nat.zero_le _, by omega, by simpa using hfull, by simp⟩

theorem survivor_eq {l : LogData} {first : Nat} (hs : SlabsFrom first l.boundaries l.slabs)
    (hc : ContiguousFrom first l.content)
    (hf : match l.accepted with
      | none => first = l.firstSlot
      | some frontier => frontier + 1 = first + l.content.length ∧ frontier + 1 < u64Bound) :
    l.survivor = first := by
  unfold survivor
  cases hb : l.boundaries with
  | cons b bs =>
    cases hss : l.slabs with
    | nil =>
      rw [hb, hss] at hs
      exact absurd hs (by simp [SlabsFrom])
    | cons s ss =>
      rw [hb, hss] at hs
      exact hs.1
  | nil =>
    have hss : l.slabs = [] := by
      have := hs.length_eq
      rw [hb, List.length_nil] at this
      exact List.length_eq_zero_iff.mp this.symm
    unfold content at hc hf
    rw [hss, List.flatten_nil, List.nil_append] at hc hf
    simp only [List.head?_nil]
    cases ht : l.tail with
    | cons entry rest =>
      rw [ht] at hc
      exact hc.1
    | nil =>
      simp only [List.head?_nil]
      rw [ht] at hf
      cases hacc : l.accepted with
      | none =>
        rw [hacc] at hf
        exact hf.symm
      | some frontier =>
        rw [hacc] at hf
        have hnext : Slot.next frontier = some (frontier + 1) := by
          rw [Slot.next_eq_some]
          exact ⟨hf.2, rfl⟩
        simp only [hnext, Option.getD_some, hf.1, List.length_nil, Nat.add_zero]

/-- **What reclaiming does.** A front of the content goes, nothing of it above the
checkpoint; the frontier stays. -/
theorem WellFormed.reclaimThrough {l : LogData} (h : l.WellFormed) (checkpoint : Nat) :
    (l.reclaimThrough checkpoint).WellFormed ∧
      (l.reclaimThrough checkpoint).accepted = l.accepted ∧
      ∃ dropped, dropped ≤ l.content.length ∧
        (0 < dropped → l.firstSlot + dropped ≤ checkpoint + 1) ∧
        (l.reclaimThrough checkpoint).firstSlot = l.firstSlot + dropped ∧
        (l.reclaimThrough checkpoint).content = l.content.drop dropped := by
  obtain ⟨hsealed, hcontent, hfirst, hacc⟩ := h.sealCovered checkpoint
  obtain ⟨dropped, hle, hbound, hform, hflat⟩ := hsealed.slabs.dropCovered checkpoint
  rw [hfirst] at hbound hform
  have hlen : dropped ≤ l.content.length := by
    rw [← hcontent]
    unfold content
    rw [List.length_append]
    omega
  let kept : LogData := { l.sealCovered checkpoint with
    slabs := (l.sealCovered checkpoint).slabs.drop
      ((l.sealCovered checkpoint).boundaries.takeWhile
        fun b => decide (b.1 + (b.2 - 1) ≤ checkpoint)).length
    boundaries := (l.sealCovered checkpoint).boundaries.drop
      ((l.sealCovered checkpoint).boundaries.takeWhile
        fun b => decide (b.1 + (b.2 - 1) ≤ checkpoint)).length }
  have hkept : kept.content = l.content.drop dropped := by
    rw [← hcontent]
    show _ ++ _ = List.drop dropped (_ ++ _)
    rw [hflat, List.drop_append_of_le_length hle]
  have hcontig : ContiguousFrom (l.firstSlot + dropped) kept.content := by
    have hall := h.contiguous
    rw [← List.take_append_drop dropped l.content] at hall
    have := (contiguousFrom_append.mp hall).2
    rw [List.length_take, Nat.min_eq_left hlen] at this
    rw [hkept]
    exact this
  have hfrontier : match kept.accepted with
      | none => l.firstSlot + dropped = kept.firstSlot
      | some frontier => frontier + 1 = l.firstSlot + dropped + kept.content.length ∧
          frontier + 1 < u64Bound := by
    have hf := h.frontier
    show match (l.sealCovered checkpoint).accepted with
      | none => l.firstSlot + dropped = (l.sealCovered checkpoint).firstSlot
      | some frontier => frontier + 1 = l.firstSlot + dropped + kept.content.length ∧
          frontier + 1 < u64Bound
    rw [hacc, hkept, hfirst, List.length_drop]
    cases hl : l.accepted with
    | none =>
      rw [hl] at hf
      rw [hf, List.length_nil] at hlen
      simp only
      omega
    | some frontier =>
      rw [hl] at hf
      exact ⟨by omega, hf.2⟩
  have hsurvivor : kept.survivor = l.firstSlot + dropped :=
    survivor_eq hform hcontig hfrontier
  have heq : l.reclaimThrough checkpoint = { kept with firstSlot := kept.survivor } := rfl
  rw [heq, hsurvivor]
  refine ⟨⟨hform, hcontig, ?_, hsealed.capacity⟩, hacc, dropped, hlen, hbound, rfl, hkept⟩
  have hf := h.frontier
  show match (l.sealCovered checkpoint).accepted with
    | none => kept.content = []
    | some frontier => frontier + 1 = l.firstSlot + dropped + kept.content.length ∧
        frontier + 1 < u64Bound
  rw [hacc, hkept, List.length_drop]
  cases hl : l.accepted with
  | none =>
    rw [hl] at hf
    rw [hf, List.drop_nil]
  | some frontier =>
    rw [hl] at hf
    exact ⟨by omega, hf.2⟩

theorem WellFormed.withTailCapacity (tailCapacity : Nat) :
    (withTailCapacity tailCapacity).WellFormed where
  slabs := trivial
  contiguous := trivial
  frontier := rfl
  capacity := by
    show 0 < max tailCapacity 1
    omega

end LogData

/-! ### The journal of well-formed logs -/

/-- **The segmented log.** Only well-formed records exist. -/
structure SegmentedLog extends LogData where
  wellFormed : toLogData.WellFormed

namespace SegmentedLog

def withTailCapacity (tailCapacity : Nat) : SegmentedLog where
  toLogData := LogData.withTailCapacity tailCapacity
  wellFormed := LogData.WellFormed.withTailCapacity tailCapacity

def accept (l : SegmentedLog) (entries : List LogEntry) : Except JournalError SegmentedLog :=
  match h : l.toLogData.accept entries with
  | .error error => .error error
  | .ok l' =>
    .ok
      { toLogData := l'
        wellFormed := by
          by_cases hne : entries = []
          · subst hne
            rw [LogData.accept_nil] at h
            exact Except.ok.inj h ▸ l.wellFormed
          · exact (l.wellFormed.accept hne h).1 }

def installSuffix (l : SegmentedLog) (start : Nat) (suffix : List LogEntry) :
    Except JournalError SegmentedLog :=
  match h : l.toLogData.installSuffix start suffix with
  | .error error => .error error
  | .ok l' =>
    .ok
      { toLogData := l'
        wellFormed := by
          obtain ⟨-, -, hwf, -⟩ := l.wellFormed.installSuffix h
          exact hwf }

def reclaimThrough (l : SegmentedLog) (checkpoint : Nat) : SegmentedLog where
  toLogData := l.toLogData.reclaimThrough checkpoint
  wellFormed := (l.wellFormed.reclaimThrough checkpoint).1

instance : Journal SegmentedLog where
  accepted l := l.accepted
  get l := l.lookup
  retained l := l.retained
  accept := accept
  installSuffix := installSuffix

theorem accept_data {l l' : SegmentedLog} {entries : List LogEntry}
    (h : l.accept entries = .ok l') : l.toLogData.accept entries = .ok l'.toLogData := by
  unfold accept at h
  split at h
  · cases h
  · rename_i data hdata
    rw [hdata, ← Except.ok.inj h]

theorem installSuffix_data {l l' : SegmentedLog} {start : Nat} {suffix : List LogEntry}
    (h : l.installSuffix start suffix = .ok l') :
    l.toLogData.installSuffix start suffix = .ok l'.toLogData := by
  unfold installSuffix at h
  split at h
  · cases h
  · rename_i data hdata
    rw [hdata, ← Except.ok.inj h]

theorem get_eq (l : SegmentedLog) (slot : Nat) :
    Journal.get l slot = entryAt l.content slot := l.wellFormed.lookup_eq slot

/-- The slots held are those from the first one to the frontier. -/
theorem get_isSome_iff (l : SegmentedLog) (slot : Nat) :
    (Journal.get l slot).isSome ↔
      l.firstSlot ≤ slot ∧ slot < l.firstSlot + l.content.length := by
  rw [get_eq]
  exact l.wellFormed.contiguous.entryAt_isSome slot

/-- Above a run of entries the run behind it is read. -/
theorem entryAt_append_run {first base slot : Nat} {xs ys : List LogEntry}
    (hxs : ContiguousFrom first xs) (hys : ContiguousFrom base ys)
    (hbase : first + xs.length = base) :
    entryAt (xs ++ ys) slot = if slot < base then entryAt xs slot else entryAt ys slot := by
  rw [entryAt_append]
  split
  · have hnone : entryAt ys slot = none := by
      rw [hys.entryAt_eq, if_pos (by omega)]
    rw [hnone, Option.or_none]
  · have hnone : entryAt xs slot = none := by
      rw [hxs.entryAt_eq]
      split
      · rfl
      · rw [List.getElem?_eq_none_iff]
        omega
    rw [hnone, Option.none_or]

/-- Cutting a run at a slot keeps what it held below. -/
theorem entryAt_take {first base slot : Nat} {xs : List LogEntry}
    (hxs : ContiguousFrom first xs) (hslot : slot < base) :
    entryAt (xs.take (base - first)) slot = entryAt xs slot := by
  have hpart : ContiguousFrom first (xs.take (base - first)) := by
    have hall := hxs
    rw [← List.take_append_drop (base - first) xs] at hall
    exact (contiguousFrom_append.mp hall).1
  rw [hxs.entryAt_eq, hpart.entryAt_eq]
  split
  · rfl
  · rw [List.getElem?_take_of_lt (by omega)]

/-- Reclaiming moves the first slot held up to at most the one after the checkpoint, and above
it reads as before. -/
theorem reclaimThrough_spec (l : SegmentedLog) (checkpoint : Nat) :
    Journal.accepted (l.reclaimThrough checkpoint) = Journal.accepted l ∧
      ∃ first, (first = (Journal.retained l).1 ∨ first ≤ checkpoint + 1) ∧
        (Journal.retained l).1 ≤ first ∧
        (Journal.retained (l.reclaimThrough checkpoint)).1 = first ∧
        ∀ slot, Journal.get (l.reclaimThrough checkpoint) slot =
          if slot < first then none else Journal.get l slot := by
  obtain ⟨-, haccepted, dropped, -, hbound, hfirst, hcontent⟩ :=
    l.wellFormed.reclaimThrough checkpoint
  have hcontiguous := (l.reclaimThrough checkpoint).wellFormed.contiguous
  refine ⟨haccepted, l.firstSlot + dropped, ?_, Nat.le_add_right _ _, hfirst, fun slot => ?_⟩
  · rcases Nat.eq_zero_or_pos dropped with hzero | hpos
    · exact Or.inl (by rw [hzero]; rfl)
    · exact Or.inr (hbound hpos)
  · have hread : (l.reclaimThrough checkpoint).content = l.content.drop dropped := hcontent
    have hstart : (l.reclaimThrough checkpoint).firstSlot = l.firstSlot + dropped := hfirst
    rw [get_eq, get_eq, hcontiguous.entryAt_eq, l.wellFormed.contiguous.entryAt_eq, hread, hstart]
    split
    · rfl
    · rw [if_neg (by omega), List.getElem?_drop]
      congr 1
      omega

instance : LawfulJournal SegmentedLog where
  get_slot {l slot entry} h := by
    rw [get_eq] at h
    exact entryAt_slot h
  get_le {l slot entry} h := by
    have hsome := (get_isSome_iff l slot).mp (by rw [h]; rfl)
    have hfrontier := l.wellFormed.frontier
    show ∃ frontier, l.accepted = some frontier ∧ slot ≤ frontier
    cases hacc : l.accepted with
    | none =>
      rw [hacc] at hfrontier
      rw [hfrontier, List.length_nil] at hsome
      omega
    | some frontier =>
      rw [hacc] at hfrontier
      exact ⟨frontier, rfl, by omega⟩
  retained_last {l frontier} h := by
    show l.accepted.getD _ = frontier
    rw [show l.accepted = some frontier from h, Option.getD_some]
  get_isSome {l slot frontier} h hfirst hlast := by
    have hfrontier := l.wellFormed.frontier
    rw [show l.accepted = some frontier from h] at hfrontier
    exact (get_isSome_iff l slot).mpr ⟨hfirst, by omega⟩
  get_lt_first {l slot} h := by
    have hlt : slot < l.firstSlot := h
    rw [get_eq, l.wellFormed.contiguous.entryAt_eq, if_pos hlt]
  accept_nil {l} := rfl
  accept_ok {l l' frontier entry rest} hacc hok := by
    obtain ⟨-, hcontent, hfirst, hrun, haccepted⟩ :=
      l.wellFormed.accept (List.cons_ne_nil entry rest) (accept_data hok)
    have hfrontier := l.wellFormed.frontier
    rw [show l.accepted = some frontier from hacc] at hfrontier
    have hnext : l.nextSlot = frontier + 1 := hfrontier.1.symm
    rw [hnext] at hrun haccepted
    refine ⟨hrun, ?_, hfirst, fun slot => ?_⟩
    · show l'.accepted = _
      rw [haccepted]
      congr 1
      omega
    · rw [get_eq, get_eq, hcontent,
        entryAt_append_run l.wellFormed.contiguous hrun hfrontier.1.symm]
      simp only [Nat.lt_succ_iff]
  installSuffix_ok {l l' frontier cut suffix} hacc hok := by
    obtain ⟨base, hbase, hwf, hne, hret, hrun, hfirst, hcontent, haccepted⟩ :=
      l.wellFormed.installSuffix (installSuffix_data hok)
    have hfrontier := l.wellFormed.frontier
    rw [show l.accepted = some frontier from hacc] at hbase hfrontier
    have hanchor : (l.anchored cut).firstSlot = l.firstSlot := by
      unfold LogData.anchored
      rw [show l.accepted = some frontier from hacc]
      rfl
    rw [hanchor] at hfirst
    rw [hfirst] at hcontent
    simp only at hbase
    subst hbase
    have hlen : l.firstSlot + (l.content.take (min cut (frontier + 1) - l.firstSlot)).length =
        min cut (frontier + 1) := by
      rw [List.length_take]
      omega
    have hpart : ContiguousFrom l.firstSlot
        (l.content.take (min cut (frontier + 1) - l.firstSlot)) := by
      have hall := hwf.contiguous
      rw [hcontent, hfirst] at hall
      exact (contiguousFrom_append.mp hall).1
    refine ⟨hret, hne, hrun, haccepted, hfirst, fun slot => ?_⟩
    rw [get_eq, get_eq, hcontent, entryAt_append_run hpart hrun hlen]
    split
    · rename_i hlt
      exact entryAt_take l.wellFormed.contiguous hlt
    · rfl
  installSuffix_fresh {l l' cut suffix} hacc hok := by
    obtain ⟨base, hbase, hwf, hne, hret, hrun, hfirst, hcontent, haccepted⟩ :=
      l.wellFormed.installSuffix (installSuffix_data hok)
    have hfrontier := l.wellFormed.frontier
    rw [show l.accepted = none from hacc] at hbase hfrontier
    have hanchor : (l.anchored cut).firstSlot = cut := by
      unfold LogData.anchored
      rw [show l.accepted = none from hacc]
      rfl
    simp only at hbase
    subst hbase
    rw [hanchor] at hfirst
    refine ⟨hne, hrun, haccepted, hfirst, fun slot => ?_⟩
    rw [get_eq, hcontent, hfrontier, List.take_nil, List.nil_append]

end SegmentedLog

end UvrrCore
