import UvrrCore.Chunks

/-!
# The greatest tail that fits

`Replica.boundedSuffix` packs a suffix from its newest entry down: first the overlay, then, if the
overlay went in whole, what the journal holds below it. Both parts are the greatest tail of what
they read that fits a budget (`FitsTail`), and one on top of the other is the greatest tail of the
journal under its overlay.
-/

namespace UvrrCore

theorem packedTotal_append (front back : List LogEntry) :
    packedTotal (front ++ back) = packedTotal front + packedTotal back := by
  simp [packedTotal]

theorem packedTotal_reverse (entries : List LogEntry) :
    packedTotal entries.reverse = packedTotal entries := by
  simp [packedTotal]

/-- **The greatest tail that fits**: a run read up to the last slot, within the budget next to some
bytes spent already, and with no room for the entry below it. -/
structure FitsTail (read : Nat → Option LogEntry) (budget last bytes : Nat)
    (tail : List LogEntry) : Prop where
  run : ContiguousFrom (last + 1 - tail.length) tail
  real : tail.length ≤ last
  held : ∀ entry ∈ tail, read entry.slot = some entry
  fits : bytes + packedTotal tail ≤ budget
  full : ∀ entry, read (last - tail.length) = some entry →
    budget < bytes + packedTotal tail + entry.packedLen

/-- The empty tail, where the last entry is missing or too much. -/
theorem FitsTail.empty {read : Nat → Option LogEntry} {budget last bytes : Nat}
    (hbytes : bytes ≤ budget)
    (hfull : ∀ entry, read last = some entry → budget < bytes + entry.packedLen) :
    FitsTail read budget last bytes [] :=
  ⟨trivial, Nat.zero_le _, fun _ hmem => (nomatch hmem), hbytes, hfull⟩

/-- What the fitting takes from the front, and what it leaves. -/
theorem takeFitting_fits (budget bytes : Nat) (entries : List LogEntry) (hbytes : bytes ≤ budget) :
    (takeFitting budget bytes entries).2 =
        bytes + packedTotal (takeFitting budget bytes entries).1 ∧
      (takeFitting budget bytes entries).2 ≤ budget ∧
      ∃ rest, entries = (takeFitting budget bytes entries).1 ++ rest ∧
        ∀ entry ∈ rest.head?, budget < (takeFitting budget bytes entries).2 + entry.packedLen := by
  induction entries generalizing bytes with
  | nil => exact ⟨rfl, hbytes, [], rfl, fun _ hmem => (nomatch hmem)⟩
  | cons entry rest ih =>
    rw [takeFitting]
    split
    · rename_i hover
      refine ⟨rfl, hbytes, entry :: rest, rfl, fun other hother => ?_⟩
      cases hother
      exact hover
    · rename_i hfits
      obtain ⟨htotal, hbudget, left, hsplit, hleft⟩ := ih (bytes + entry.packedLen) (by omega)
      refine ⟨?_, hbudget, left, congrArg (entry :: ·) hsplit, hleft⟩
      dsimp only
      rw [htotal, packedTotal_cons]
      omega

section Journal

variable {J : Type} [Journal J]

/-- What is read lies in the window. -/
theorem retained_of_get [LawfulJournal J] {journal : J} {slot : Nat} {entry : LogEntry}
    (h : Journal.get journal slot = some entry) :
    ¬(slot < (Journal.retained journal).1 ∨ (Journal.retained journal).2 < slot) := by
  rintro (hlow | hhigh)
  · rw [LawfulJournal.get_lt_first hlow] at h
    cases h
  · obtain ⟨frontier, hfrontier, hle⟩ := LawfulJournal.get_le h
    rw [LawfulJournal.retained_last hfrontier] at hhigh
    omega

/-- **The journal's part** is the greatest tail of the journal that fits. -/
theorem journalTail_fits [LawfulJournal J] {journal : J} (hvoid : Journal.get journal Slot.none = none)
    (budget cursor bytes : Nat) (hbytes : bytes ≤ budget) :
    FitsTail (Journal.get journal) budget cursor bytes
      (journalTail journal budget cursor bytes) := by
  induction cursor generalizing bytes with
  | zero =>
    have hnil : journalTail journal budget 0 bytes = [] := by
      rw [journalTail, journalTail.tailAt, show Journal.get journal 0 = none from hvoid]
      simp
    rw [hnil]
    refine .empty hbytes fun entry hget => ?_
    rw [show Journal.get journal 0 = none from hvoid] at hget
    cases hget
  | succ cursor ih =>
    rw [journalTail, journalTail.tailAt]
    cases hget : Journal.get journal (cursor + 1) with
    | none =>
      have hnil : FitsTail (Journal.get journal) budget (cursor + 1) bytes [] := by
        refine .empty hbytes fun entry hentry => ?_
        rw [hget] at hentry
        cases hentry
      simpa using hnil
    | some entry =>
      dsimp only
      rw [if_neg (retained_of_get hget)]
      split
      · rename_i hover
        refine .empty hbytes fun other hother => ?_
        obtain rfl := Option.some.inj (hget.symm.trans hother)
        exact hover
      · rename_i hfits
        obtain ⟨hrun, hreal, hheld, hbudget, hfull⟩ := ih (bytes + entry.packedLen) (by omega)
        have hslot := LawfulJournal.get_slot hget
        generalize journalTail journal budget cursor (bytes + entry.packedLen) = below at *
        have hlength : (below ++ [entry]).length = below.length + 1 := by simp
        refine ⟨?_, by omega, fun other hmem => ?_, ?_, fun other hother => ?_⟩
        · rw [hlength, Nat.add_sub_add_right]
          refine contiguousFrom_append.mpr ⟨hrun, ?_, trivial⟩
          omega
        · rcases List.mem_append.mp hmem with hmem | hmem
          · exact hheld other hmem
          · obtain rfl := List.mem_singleton.mp hmem
            rw [hslot]
            exact hget
        · rw [packedTotal_append, packedTotal_cons, packedTotal_nil]
          omega
        · rw [hlength, Nat.add_sub_add_right] at hother
          have hover := hfull other hother
          rw [packedTotal_append, packedTotal_cons, packedTotal_nil]
          omega

/-- A suffix of a run, on top of the greatest tail that fits below the run. -/
theorem FitsTail.append {read : Nat → Option LogEntry} {budget start last bytes : Nat}
    {below above : List LogEntry} (hstart : start ≠ Slot.none)
    (habove : ContiguousFrom start above) (hlast : start + above.length = last + 1)
    (hheld : ∀ entry ∈ above, read entry.slot = some entry)
    (h : FitsTail read budget (start - 1) (bytes + packedTotal above) below) :
    FitsTail read budget last bytes (below ++ above) := by
  obtain ⟨hrun, hreal, hheld', hfits, hfull⟩ := h
  have hpos : start ≠ 0 := hstart
  have hlength : (below ++ above).length = below.length + above.length := List.length_append
  have hbase : last + 1 - (below.length + above.length) = start - 1 + 1 - below.length := by omega
  refine ⟨?_, by omega, fun entry hmem => ?_, ?_, fun entry hentry => ?_⟩
  · rw [hlength, hbase]
    refine contiguousFrom_append.mpr ⟨hrun, ?_⟩
    rwa [show start - 1 + 1 - below.length + below.length = start by omega]
  · rcases List.mem_append.mp hmem with hmem | hmem
    · exact hheld' entry hmem
    · exact hheld entry hmem
  · rw [packedTotal_append]
    omega
  · rw [hlength, show last - (below.length + above.length) = start - 1 - below.length by omega]
      at hentry
    have hover := hfull entry hentry
    rw [packedTotal_append]
    omega

/-- Below the overlay the journal is read. -/
theorem FitsTail.merge {journal : J} {overlay : List LogEntry} {start budget last bytes : Nat}
    {tail : List LogEntry} (hoverlay : ContiguousFrom start overlay) (hlast : last < start)
    (h : FitsTail (Journal.get journal) budget last bytes tail) :
    FitsTail (merged journal overlay) budget last bytes tail := by
  have hread : ∀ slot < start, merged journal overlay slot = Journal.get journal slot := by
    intro slot hlt
    rw [merged, hoverlay.entryAt_eq, if_pos hlt]
  obtain ⟨hrun, hreal, hheld, hfits, hfull⟩ := h
  refine ⟨hrun, hreal, fun entry hmem => ?_, hfits, fun entry hentry => hfull entry ?_⟩
  · have hslot := (hrun.mem_slot hmem).2
    rw [hread _ (by omega)]
    exact hheld entry hmem
  · rwa [hread _ (by omega)] at hentry

/-- The overlay is read where it lies. -/
theorem merged_of_mem {journal : J} {overlay : List LogEntry} {start : Nat}
    (hoverlay : ContiguousFrom start overlay) {entry : LogEntry} (hmem : entry ∈ overlay) :
    merged journal overlay entry.slot = some entry := by
  obtain ⟨front, back, rfl⟩ := List.append_of_mem hmem
  obtain ⟨hfront, hentry, -⟩ := contiguousFrom_append.mp hoverlay
  have hnone : entryAt front entry.slot = none := by
    rw [hfront.entryAt_eq]
    split
    · rfl
    · exact List.getElem?_eq_none (by omega)
  rw [merged, entryAt_append, hnone, Option.none_or, entryAt, List.find?_cons_of_pos (by simp)]

/-- The slot a run ends at is that of its last entry. -/
theorem ContiguousFrom.getLast_slot {start : Nat} {front : List LogEntry} {last : LogEntry}
    (h : ContiguousFrom start (front ++ [last])) : last.slot = start + front.length :=
  (contiguousFrom_append.mp h).2.1

/-- **The packed suffix** is the greatest tail that fits of the journal under its overlay. -/
theorem boundedSuffix_fits [LawfulJournal J] {r : Replica J} {overlay : List LogEntry}
    {frontier : Nat} (hvoid : Journal.get r.journal Slot.none = none)
    (hoverlay : overlay = [] ∨ ∃ start, start ≠ Slot.none ∧ ContiguousFrom start overlay ∧
      start + overlay.length = frontier + 1) :
    FitsTail (merged r.journal overlay) r.knobs.viewChangeBudget frontier 0
      (r.boundedSuffix frontier overlay) := by
  obtain ⟨htotal, hbudget, rest, hsplit, hrest⟩ :=
    takeFitting_fits r.knobs.viewChangeBudget 0 overlay.reverse (Nat.zero_le _)
  unfold Replica.boundedSuffix
  dsimp only
  cases overlay with
  | nil =>
    have htail := journalTail_fits hvoid r.knobs.viewChangeBudget frontier 0 (Nat.zero_le _)
    have hread : merged r.journal [] = Journal.get r.journal := funext fun slot => rfl
    rw [hread]
    simpa [takeFitting] using htail
  | cons first others =>
    obtain ⟨start, hstart, hrun, hend⟩ := hoverlay.resolve_left (List.cons_ne_nil _ _)
    have hpos : start ≠ 0 := hstart
    generalize takeFitting r.knobs.viewChangeBudget 0 (first :: others).reverse = fitting at *
    obtain ⟨picked, bytes⟩ := fitting
    dsimp only at htotal hbudget hsplit hrest ⊢
    rw [Nat.zero_add] at htotal
    have hwhole : first :: others = rest.reverse ++ picked.reverse := by
      rw [← List.reverse_append, ← hsplit, List.reverse_reverse]
    have hlength := congrArg List.length hwhole
    rw [List.length_append, List.length_reverse, List.length_reverse] at hlength
    rw [List.head?_cons]
    dsimp only
    cases rest with
    | nil =>
      -- the overlay is in whole, and the journal fills up from below
      rw [List.length_nil, Nat.zero_add] at hlength
      rw [List.reverse_nil, List.nil_append] at hwhole
      have hprev : Slot.prev first.slot = some (start - 1) := by
        rw [Slot.prev_eq_some, hrun.1]
        omega
      rw [if_pos hlength.symm, hprev, ← hwhole]
      dsimp only
      refine .append hstart hrun hend (fun entry hmem => merged_of_mem hrun hmem)
        (.merge hrun (by omega) ?_)
      have hbytes : 0 + packedTotal (first :: others) = bytes := by
        rw [hwhole, packedTotal_reverse, htotal, Nat.zero_add]
      rw [hbytes]
      exact journalTail_fits hvoid _ _ _ hbudget
    | cons entry rest =>
      -- the overlay broke at an entry that is too much
      simp only [List.length_cons] at hlength hend
      rw [if_neg (by rw [List.length_cons]; omega)]
      dsimp only
      rw [List.nil_append]
      rw [hwhole] at hrun
      obtain ⟨hleft, hpicked⟩ := contiguousFrom_append.mp hrun
      rw [List.reverse_cons] at hleft
      have hentry := hleft.getLast_slot
      rw [List.length_reverse] at hentry hpicked
      rw [List.length_cons] at hpicked
      have hpicks : picked.reverse.length = picked.length := List.length_reverse
      refine ⟨?_, by omega, fun other hmem => ?_, ?_, fun other hother => ?_⟩
      · rwa [show frontier + 1 - picked.reverse.length = start + (rest.length + 1) by omega]
      · rw [hwhole]
        exact merged_of_mem hrun (List.mem_append_right _ hmem)
      · rw [packedTotal_reverse]
        omega
      · have hread : merged r.journal (first :: others) entry.slot = some entry := by
          rw [hwhole]
          exact merged_of_mem hrun (List.mem_append_left _ (by simp))
        rw [show frontier - picked.reverse.length = entry.slot by omega, hread] at hother
        obtain rfl := Option.some.inj hother
        have hover := hrest entry rfl
        rw [packedTotal_reverse]
        omega

/-- **The packed suffix, in full**: a run up to the frontier, of the overlay's entries where it
has one and the journal's elsewhere, within the budget and of the shape a receiver checks; and the
entry below it, where one is held, would be too much. -/
theorem boundedSuffix_greatest [LawfulJournal J] {r : Replica J} {overlay : List LogEntry}
    {frontier : Nat} (hvoid : Journal.get r.journal Slot.none = none)
    (hoverlay : overlay = [] ∨ ∃ start, start ≠ Slot.none ∧ ContiguousFrom start overlay ∧
      start + overlay.length = frontier + 1) :
    ∃ base, ContiguousFrom base (r.boundedSuffix frontier overlay) ∧
      base + (r.boundedSuffix frontier overlay).length = frontier + 1 ∧
      (∀ entry ∈ r.boundedSuffix frontier overlay,
        merged r.journal overlay entry.slot = some entry) ∧
      packedTotal (r.boundedSuffix frontier overlay) ≤ r.knobs.viewChangeBudget ∧
      suffixShapeOk (r.boundedSuffix frontier overlay) frontier = true ∧
      ∀ entry, merged r.journal overlay (base - 1) = some entry →
        r.knobs.viewChangeBudget <
          packedTotal (entry :: r.boundedSuffix frontier overlay) := by
  obtain ⟨hrun, hreal, hheld, hfits, hfull⟩ := boundedSuffix_fits hvoid hoverlay
  generalize r.boundedSuffix frontier overlay = suffix at *
  refine ⟨frontier + 1 - suffix.length, hrun, by omega, hheld, by omega, ?_,
    fun entry hentry => ?_⟩
  · cases hlast : suffix.getLast? with
    | none =>
      rw [List.getLast?_eq_none_iff.mp hlast]
      rfl
    | some last =>
      have hslot := hrun.getLast?_slot hlast
      refine suffixShapeOk_of_run hrun ?_ hlast (by omega)
      show _ ≠ 0
      omega
  · have hover := hfull entry (by
      rwa [show frontier + 1 - suffix.length - 1 = frontier - suffix.length by omega] at hentry)
    rw [packedTotal_cons]
    omega

end Journal

namespace Replica

/-- A fresh node with a budget of forty bytes. -/
def tightNode : Option (Replica SegmentedLog) :=
  (provision 2 [1, 2, 3] weightedMajority (SegmentedLog.withTailCapacity 4) .volatile
    { primaryTimeout := 0, viewChangeBudget := 40 }).toOption

def thirdEntry : List LogEntry := [⟨3, 1, .system .halve⟩]

theorem tight_cuts :
    (tightNode.map fun r => (r.boundedSuffix 3 thirdEntry, Journal.get r.journal 2,
      Journal.get r.journal Slot.none)) =
      some (thirdEntry, some ⟨2, 1, .system (.init [1, 2, 3])⟩, none) := by
  decide +kernel

/-- A third entry on top of its genesis is packed alone: with the second it would be too much. -/
theorem tight_packs : ∃ r : Replica SegmentedLog, r.Reached ∧
    r.boundedSuffix 3 thirdEntry = thirdEntry ∧
    Journal.get r.journal 2 = some ⟨2, 1, .system (.init [1, 2, 3])⟩ ∧
    ∃ base, ContiguousFrom base thirdEntry ∧ base + thirdEntry.length = 4 ∧
      (∀ entry ∈ thirdEntry, merged r.journal thirdEntry entry.slot = some entry) ∧
      packedTotal thirdEntry ≤ r.knobs.viewChangeBudget ∧ suffixShapeOk thirdEntry 3 = true ∧
      ∀ entry, merged r.journal thirdEntry (base - 1) = some entry →
        r.knobs.viewChangeBudget < packedTotal (entry :: thirdEntry) := by
  obtain ⟨r, hr, hcuts⟩ := Option.map_eq_some_iff.mp tight_cuts
  obtain ⟨hsuffix, hrest⟩ := Prod.mk.inj hcuts
  obtain ⟨hsecond, hvoid⟩ := Prod.mk.inj hrest
  have hoverlay : thirdEntry = [] ∨ ∃ start, start ≠ Slot.none ∧ ContiguousFrom start thirdEntry ∧
      start + thirdEntry.length = 3 + 1 := .inr ⟨3, by decide, ⟨rfl, trivial⟩, rfl⟩
  have hpacked := boundedSuffix_greatest hvoid hoverlay
  rw [hsuffix] at hpacked
  exact ⟨r, .provision (toOption_eq_some hr), hsuffix, hsecond, hpacked⟩

end Replica

end UvrrCore
