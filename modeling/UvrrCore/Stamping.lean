import UvrrCore.Planner
import UvrrCore.Runs
import UvrrCore.Slab

/-!
# Stamps and the commit fold

`Configuration.foldSlots` judges a slab operation by operation and stamps each with the era it is
judged in. The commit folds the same slots by maximal runs of one stamp, a run of several as one
batch. `Stamped` is the first fold as a relation on what is left of the list; the second is
followed run by run beside it.

The two agree on every stamp. They end alike where each run is one establishing operation with
its riders and the batch rule admits it. A run of riders alone is refused, or establishes an era
that the slab does not count; a scaling is refused in a batch, and folded alone it leaves its
riders to a run of their own.

## Main results

* `Stamped.stampsAgree`: what the stamps of an accepted slab are.
* `foldSlots_commits_iff`: when the commit of an accepted slab ends where its acceptance did.
-/

namespace UvrrCore

/-! ### The fold of a slab as a relation -/

/-- How many operations of a list establish an era. -/
def eraCount (ops : List SystemOperation) : Nat :=
  ops.countP fun op => !op.isNominate

theorem eraCount_cons (op : SystemOperation) (ops : List SystemOperation) :
    eraCount (op :: ops) = eraCount ops + if op.isNominate then 0 else 1 := by
  unfold eraCount
  rw [List.countP_cons]
  cases op.isNominate <;> rfl

theorem eraCount_append (ops rest : List SystemOperation) :
    eraCount (ops ++ rest) = eraCount ops + eraCount rest := List.countP_append

theorem SystemOperation.exists_of_isNominate {op : SystemOperation} (h : op.isNominate = true) :
    ∃ view offset, op = .nominate view offset := by
  cases op with
  | nominate view offset => exact ⟨view, offset, rfl⟩
  | _ => cases h

/-- Riders only. -/
def Riding (ops : List SystemOperation) : Prop := ∀ op ∈ ops, op.isNominate = true

theorem Riding.eraCount {ops : List SystemOperation} (h : Riding ops) :
    eraCount ops = 0 := by
  refine List.countP_eq_zero.mpr fun op hmem => ?_
  rw [h op hmem]
  exact Bool.false_ne_true

theorem Riding.isSingle {ops : List SystemOperation} (h : Riding ops) :
    ∀ op ∈ ops, op.isSingle = true := by
  intro op hmem
  obtain ⟨view, offset, rfl⟩ := SystemOperation.exists_of_isNominate (h op hmem)
  rfl

theorem Riding.isScaling {ops : List SystemOperation} (h : Riding ops) :
    ∀ op ∈ ops, op.isScaling = false := by
  intro op hmem
  obtain ⟨view, offset, rfl⟩ := SystemOperation.exists_of_isNominate (h op hmem)
  rfl

/-- **A slab accepted over a configuration**, with its stamps, the configuration it leads to, and
the stamp that a rider at its head takes over. -/
inductive Stamped : Nat → Configuration → List SystemOperation → List Nat → Configuration → Prop
  | nil {last : Nat} {c : Configuration} : Stamped last c [] [] c
  | rider {last view offset : Nat} {c established : Configuration} {ops : List SystemOperation}
      {stamps : List Nat} (hoffset : offset ≠ 0) (hrest : Stamped last c ops stamps established) :
      Stamped last c (.nominate view offset :: ops) (last :: stamps) established
  | establishing {last : Nat} {c next established : Configuration} {op : SystemOperation}
      {ops : List SystemOperation} {stamps : List Nat} (hop : op.isNominate = false)
      (happly : c.applyInEra op = .ok next) (hera : c.era + 1 < u32Bound)
      (hrest : Stamped c.era { next with era := c.era + 1 } ops stamps established) :
      Stamped last c (op :: ops) (c.era :: stamps) established

/-- Acceptance is the relation. -/
theorem stamped_of_go {ops : List SystemOperation} {eras eras' : List Nat}
    {c established : Configuration} (hc : c.WellFormed)
    (h : Configuration.foldSlots.go eras c ops = .ok (eras', established)) :
    ∃ stamps, eras' = eras ++ stamps ∧
      Stamped (eras.getLast?.getD c.era) c ops stamps established := by
  induction ops generalizing eras c with
  | nil =>
    cases h
    exact ⟨[], (List.append_nil _).symm, .nil⟩
  | cons op ops ih =>
    rw [Configuration.foldSlots.go] at h
    obtain ⟨next, hnext, hgo⟩ := bind_eq_ok.mp h
    clear h
    cases hop : op.isNominate with
    | true =>
      rw [hop, if_pos rfl, if_pos rfl] at hgo
      obtain ⟨view, offset, rfl⟩ := SystemOperation.exists_of_isNominate hop
      obtain ⟨hoffset, rfl⟩ := Configuration.applyInEra_nominate hnext
      obtain ⟨stamps, rfl, hrest⟩ := ih hc hgo
      rw [List.getLast?_append_of_ne_nil _ (List.cons_ne_nil _ _)] at hrest
      exact ⟨_ :: stamps, by rw [List.append_assoc]; rfl, .rider hoffset hrest⟩
    | false =>
      simp only [hop, Bool.false_eq_true, if_false] at hgo
      obtain ⟨hchange, hsame⟩ := Configuration.applyInEra_change hc.nodup hnext
      split at hgo
      · cases hgo
      · rename_i era hera
        obtain ⟨hbound, rfl⟩ := Era.next_eq_some.mp hera
        rw [hsame] at hgo hbound
        have hwell := hchange.wellFormed hc
        obtain ⟨stamps, rfl, hrest⟩ :=
          ih (c := { next with era := c.era + 1 }) ⟨hwell.nodup, hwell.capped⟩ hgo
        rw [List.getLast?_append_of_ne_nil _ (List.cons_ne_nil _ _)] at hrest
        exact ⟨c.era :: stamps, by rw [List.append_assoc]; rfl,
          .establishing hop hnext hbound hrest⟩

theorem stamped_of_foldSlots {c established : Configuration} (hc : c.WellFormed)
    {ops : List SystemOperation} {stamps : List Nat}
    (h : c.foldSlots ops = .ok (stamps, established)) :
    Stamped c.era c ops stamps established := by
  obtain ⟨stamps, rfl, hstamped⟩ := stamped_of_go hc h
  exact hstamped

/-! ### The stamps -/

/-- **What the stamps of a slab are**, from an era on: as many as the operations, never falling; an
establishing slot's is the era after those before it, a rider's is that of the slot before. -/
structure StampsAgree (era : Nat) (ops : List SystemOperation) (stamps : List Nat) : Prop where
  length : stamps.length = ops.length
  rising : stamps.Pairwise (· ≤ ·)
  establishing : ∀ i op, ops[i]? = some op → op.isNominate = false →
    stamps[i]? = some (era + eraCount (ops.take i))
  riding : ∀ i op, ops[i + 1]? = some op → op.isNominate = true → stamps[i + 1]? = stamps[i]?

namespace Stamped

variable {last : Nat} {c established : Configuration} {ops : List SystemOperation}
  {stamps : List Nat}

theorem length (h : Stamped last c ops stamps established) : stamps.length = ops.length := by
  induction h with
  | nil => rfl
  | rider hoffset hrest ih => rw [List.length_cons, List.length_cons, ih]
  | establishing hop happly hera hrest ih => rw [List.length_cons, List.length_cons, ih]

theorem era (h : Stamped last c ops stamps established) :
    established.era = c.era + eraCount ops := by
  induction h with
  | nil => rfl
  | rider hoffset hrest ih =>
    rw [ih, eraCount_cons]
    rfl
  | establishing hop happly hera hrest ih =>
    rw [ih, eraCount_cons, hop]
    show _ + 1 + _ = _ + (_ + 1)
    omega

/-- The stamps rise, from the one a rider takes over on. -/
theorem rising (h : Stamped last c ops stamps established) (hlast : last ≤ c.era) :
    (last :: stamps).Pairwise (· ≤ ·) := by
  induction h with
  | nil => exact List.pairwise_singleton _ _
  | rider hoffset hrest ih =>
    refine List.pairwise_cons.mpr ⟨fun stamp hmem => ?_, ih hlast⟩
    rcases List.mem_cons.mp hmem with rfl | hmem
    · exact Nat.le_refl _
    · exact (List.pairwise_cons.mp (ih hlast)).1 stamp hmem
  | establishing hop happly hera hrest ih =>
    have hrising := ih (Nat.le_succ _)
    refine List.pairwise_cons.mpr ⟨fun stamp hmem => ?_, hrising⟩
    rcases List.mem_cons.mp hmem with rfl | hmem
    · exact hlast
    · exact hlast.trans ((List.pairwise_cons.mp hrising).1 stamp hmem)

theorem stamp_establishing (h : Stamped last c ops stamps established) (i : Nat)
    (op : SystemOperation) (hi : ops[i]? = some op) (hop : op.isNominate = false) :
    stamps[i]? = some (c.era + eraCount (ops.take i)) := by
  induction h generalizing i with
  | nil => cases hi
  | rider hoffset hrest ih =>
    cases i with
    | zero =>
      cases hi
      cases hop
    | succ i =>
      rw [List.getElem?_cons_succ, ih i hi, List.take_succ_cons, eraCount_cons]
      rfl
  | establishing hfirst happly hera hrest ih =>
    cases i with
    | zero => rfl
    | succ i =>
      rw [List.getElem?_cons_succ, ih i hi, List.take_succ_cons, eraCount_cons, hfirst]
      show some (_ + 1 + _) = some (_ + (_ + 1))
      congr 1
      omega

theorem stamp_riding (h : Stamped last c ops stamps established) (i : Nat)
    (op : SystemOperation) (hi : ops[i]? = some op) (hop : op.isNominate = true) :
    stamps[i]? = (last :: stamps)[i]? := by
  induction h generalizing i with
  | nil => cases hi
  | rider hoffset hrest ih =>
    cases i with
    | zero => rfl
    | succ i => exact ih i hi
  | establishing hfirst happly hera hrest ih =>
    cases i with
    | zero =>
      cases hi
      rw [hfirst] at hop
      cases hop
    | succ i => exact ih i hi

/-- **The stamps of an accepted slab.** -/
theorem stampsAgree (h : Stamped c.era c ops stamps established) :
    StampsAgree c.era ops stamps where
  length := h.length
  rising := (List.pairwise_cons.mp (h.rising (Nat.le_refl _))).2
  establishing := h.stamp_establishing
  riding := fun i op hi hop => h.stamp_riding (i + 1) op hi hop

end Stamped

/-! ### Cutting a slab -/

/-- A slab is cut behind its leading riders, which change no configuration. -/
theorem Stamped.past_riders {last : Nat} {c established : Configuration}
    {lead tail : List SystemOperation} {stamps : List Nat} (hlead : Riding lead)
    (h : Stamped last c (lead ++ tail) stamps established) :
    ∃ later, stamps = List.replicate lead.length last ++ later ∧
      (∀ d : Configuration, d.applyAllInEra lead = .ok d) ∧
      Stamped last c tail later established := by
  induction lead generalizing stamps with
  | nil => exact ⟨stamps, rfl, fun _ => rfl, h⟩
  | cons op lead ih =>
    have hop := hlead op List.mem_cons_self
    cases h with
    | rider hoffset hrest =>
      obtain ⟨later, rfl, happly, hlater⟩ :=
        ih (fun other hmem => hlead other (List.mem_cons_of_mem _ hmem)) hrest
      exact ⟨later, rfl, fun d => bind_eq_ok.mpr ⟨d, if_neg hoffset, happly d⟩, hlater⟩
    | establishing hnot =>
      rw [hop] at hnot
      cases hnot

/-- A list is its leading riders and what begins with an establishing operation. -/
theorem exists_riders (ops : List SystemOperation) :
    ∃ lead tail, ops = lead ++ tail ∧ Riding lead ∧
      ∀ op ∈ tail.head?, op.isNominate = false := by
  induction ops with
  | nil => exact ⟨[], [], rfl, fun _ hmem => absurd hmem List.not_mem_nil, by simp⟩
  | cons op ops ih =>
    cases hop : op.isNominate with
    | true =>
      obtain ⟨lead, tail, rfl, hlead, htail⟩ := ih
      exact ⟨op :: lead, tail, rfl, List.forall_mem_cons.mpr ⟨hop, hlead⟩, htail⟩
    | false =>
      refine ⟨[], op :: ops, rfl, fun _ hmem => absurd hmem List.not_mem_nil, fun other hmem => ?_⟩
      rw [List.head?_cons] at hmem
      cases hmem
      exact hop

/-! ### A slab in the log -/

/-- A slab's entries stand in a log behind a slot. -/
def Held (read : Nat → Option LogEntry) : Nat → List SystemOperation → List Nat → Prop
  | slot, op :: ops, era :: stamps =>
    slot + 1 < u64Bound ∧
      read (slot + 1) = some { slot := slot + 1, era := era, payload := .system op } ∧
      Held read (slot + 1) ops stamps
  | _, _, _ => True

theorem held_of_slabEntries {read : Nat → Option LogEntry} {ops : List SystemOperation}
    {slot : Nat} {stamps : List Nat} {entries : List LogEntry}
    (hlength : stamps.length = ops.length)
    (h : Replica.slabEntries (slot + 1) ops stamps = .ok entries)
    (hread : ∀ entry ∈ entries, read entry.slot = some entry) : Held read slot ops stamps := by
  induction ops generalizing slot stamps entries with
  | nil =>
    unfold Held
    trivial
  | cons op ops ih =>
    cases stamps with
    | nil => cases hlength
    | cons era stamps =>
      obtain ⟨hslot, rest, hrest, rfl⟩ := slabEntries_cons h
      exact ⟨hslot, hread _ List.mem_cons_self, ih (Nat.succ.inj hlength) hrest
        fun entry hmem => hread entry (List.mem_cons_of_mem _ hmem)⟩

/-- No system entry behind the slab carries on its last run. -/
def Ends (read : Nat → Option LogEntry) (slot last : Nat) (stamps : List Nat) : Prop :=
  ∀ entry, read (slot + stamps.length + 1) = some entry →
    (last :: stamps).getLast? = some entry.era → entry.payload.isSystem = false

theorem Ends.tail {read : Nat → Option LogEntry} {slot last stamp : Nat} {stamps : List Nat}
    (h : Ends read slot last (stamp :: stamps)) : Ends read (slot + 1) stamp stamps := by
  intro entry hentry hera
  refine h entry ?_ hera
  rw [List.length_cons, ← hentry]
  congr 1
  omega

section Runs

variable {read : Nat → Option LogEntry} {last : Nat} {c established : Configuration}
  {stamps : List Nat}

/-- Behind riders of its own stamp a run goes on as it does behind the last of them. -/
theorem runAfter_riders (fuel : Nat) {lead tail : List SystemOperation} {slot : Nat}
    (hlead : Riding lead)
    (h : Stamped last c (lead ++ tail) stamps established)
    (hheld : Held read slot (lead ++ tail) stamps) (hends : Ends read slot last stamps)
    (hfuel : lead.length ≤ fuel) :
    ∃ later, Stamped last c tail later established ∧
      Held read (slot + lead.length) tail later ∧ Ends read (slot + lead.length) last later ∧
      runAfter read last fuel slot =
        lead ++ runAfter read last (fuel - lead.length) (slot + lead.length) := by
  induction lead generalizing slot fuel stamps with
  | nil => exact ⟨stamps, h, hheld, hends, rfl⟩
  | cons op lead ih =>
    have hop := hlead op List.mem_cons_self
    cases h with
    | rider hoffset hrest =>
      obtain ⟨hslot, hread, hbehind⟩ := hheld
      rw [List.length_cons] at hfuel
      obtain ⟨fuel, rfl⟩ := Nat.exists_eq_add_of_le' (Nat.le_trans (Nat.le_add_left 1 _) hfuel)
      obtain ⟨later, hlater, hheld', hends', hrun⟩ := ih fuel
        (fun other hmem => hlead other (List.mem_cons_of_mem _ hmem)) hrest hbehind hends.tail
        (by omega)
      have hshift : slot + (lead.length + 1) = slot + 1 + lead.length := by omega
      refine ⟨later, hlater, ?_, ?_, ?_⟩
      · rw [List.length_cons, hshift]
        exact hheld'
      · rw [List.length_cons, hshift]
        exact hends'
      · rw [runAfter_cons hslot hread, hrun, List.length_cons, hshift, Nat.add_sub_add_right]
        rfl
    | establishing hnot =>
      rw [hop] at hnot
      cases hnot

/-- A run of an earlier stamp ends before an establishing slot, and at the end of the slab. -/
theorem runAfter_ends {tail : List SystemOperation} {slot fuel : Nat}
    (h : Stamped last c tail stamps established) (htail : ∀ op ∈ tail.head?, op.isNominate = false)
    (hheld : Held read slot tail stamps) (hends : Ends read slot last stamps)
    (hlast : tail ≠ [] → last < c.era) : runAfter read last fuel slot = [] := by
  refine runAfter_nil fun entry hentry => ?_
  cases h with
  | nil =>
    by_cases hera : entry.era = last
    · exact .inr (hends entry hentry (by rw [hera]; rfl))
    · exact .inl hera
  | rider hoffset hrest => exact absurd (htail _ rfl) Bool.noConfusion
  | establishing hop happly hera hrest =>
    obtain ⟨-, hread, -⟩ := hheld
    rw [hread] at hentry
    cases hentry
    exact .inl (Nat.ne_of_gt (hlast (List.cons_ne_nil _ _)))

end Runs

/-! ### One run -/

namespace Configuration

theorem isSingle_of_applyInEra {c next : Configuration} {op : SystemOperation}
    (h : c.applyInEra op = .ok next) : op.isSingle = true := by
  cases op with
  | void | init _ | batch _ => cases h
  | _ => rfl

/-- **One establishing operation among riders is a batch**, unless it is a scaling. -/
theorem apply_ridden_run {c next : Configuration} (hc : c.WellFormed) (hne : c.order ≠ [])
    {lead riders : List SystemOperation} {op : SystemOperation} (slot : Nat) (hlead : Riding lead)
    (hriders : Riding riders) (hbefore : ∀ d : Configuration, d.applyAllInEra lead = .ok d)
    (hbehind : ∀ d : Configuration, d.applyAllInEra riders = .ok d)
    (hscaling : op.isScaling = false) (happly : c.applyInEra op = .ok next)
    (hera : c.era + 1 < u32Bound) :
    c.apply (.batch (lead ++ op :: riders)) slot = .ok { next with era := c.era + 1 } := by
  refine apply_batch.mpr ⟨by simp, fun other hmem => ?_, hne, hera, next, ?_,
    .inr (.inr ⟨fun other hmem => ?_, ?_⟩), rfl⟩
  · rcases List.mem_append.mp hmem with hmem | hmem
    · exact Riding.isSingle hlead other hmem
    · rcases List.mem_cons.mp hmem with rfl | hmem
      · exact isSingle_of_applyInEra happly
      · exact Riding.isSingle hriders other hmem
  · exact applyAllInEra_append.mpr ⟨c, hbefore c, bind_eq_ok.mpr ⟨next, happly, hbehind next⟩⟩
  · rcases List.mem_append.mp hmem with hmem | hmem
    · exact Riding.isScaling hlead other hmem
    · rcases List.mem_cons.mp hmem with rfl | hmem
      · exact hscaling
      · exact Riding.isScaling hriders other hmem
  · rw [massMoved_eq]
    exact (applyInEra_change hc.nodup happly).1.moved_le_one hscaling

/-- No batch of several holds a scaling. -/
theorem isScaling_of_batch {c next : Configuration} {ops : List SystemOperation} {slot : Nat}
    (h : c.apply (.batch ops) slot = .ok next) (hseveral : 1 < ops.length) :
    ∀ op ∈ ops, op.isScaling = false := by
  obtain ⟨-, -, -, -, folded, -, hunit, -⟩ := apply_batch.mp h
  rcases hunit with rfl | rfl | ⟨hscaling, -⟩
  · exact absurd hseveral (Nat.lt_irrefl 1)
  · exact absurd hseveral (Nat.lt_irrefl 1)
  · exact hscaling

end Configuration

/-- What an extension says of the configuration. -/
theorem EraTable.apply_of_extend {table extended : EraTable} {op : SystemOperation} {slot : Nat}
    (h : table.extend op slot = .ok extended) :
    table.current.config.apply op slot = .ok extended.current.config := by
  obtain ⟨config, hconfig, h⟩ := bind_eq_ok.mp h
  rw [hconfig, ← pure_eq_ok.mp h]

/-- No rider extends a table alone. -/
theorem EraTable.not_extend_rider {table extended : EraTable} {op : SystemOperation} {slot : Nat}
    (hop : op.isNominate = true) : table.extend op slot ≠ .ok extended := by
  obtain ⟨view, offset, rfl⟩ := SystemOperation.exists_of_isNominate hop
  exact fun h => by cases EraTable.apply_of_extend h

/-- An extension of a sound table is one era further. -/
theorem EraTable.Sound.extend_era {table extended : EraTable} {op : SystemOperation}
    {frontier slot : Nat} (h : table.Sound frontier) (hslot : frontier < slot)
    (hextend : table.extend op slot = .ok extended) :
    extended.current.config.era = table.current.config.era + 1 := by
  obtain ⟨config, -, hera, -, rfl⟩ := h.extend_eq hslot hextend
  rw [hera, h.era]

/-! ### The runs of a slab -/

/-- No scaling has a rider directly behind it. -/
def Unridden (ops : List SystemOperation) : Prop :=
  ops.IsChain fun op next => op.isScaling = true → next.isNominate = false

theorem Unridden.cons {op : SystemOperation} {ops : List SystemOperation} (h : Unridden ops)
    (hop : ∀ next ∈ ops.head?, op.isScaling = true → next.isNominate = false) :
    Unridden (op :: ops) := List.isChain_cons.mpr ⟨hop, h⟩

theorem Unridden.behind_riders {lead tail : List SystemOperation} (hlead : Riding lead)
    (h : Unridden tail) : Unridden (lead ++ tail) := by
  induction lead with
  | nil => exact h
  | cons op lead ih =>
    refine (ih fun other hmem => hlead other (List.mem_cons_of_mem _ hmem)).cons
      fun next _ hscaling => ?_
    rw [Riding.isScaling hlead op List.mem_cons_self] at hscaling
    cases hscaling

theorem Unridden.behind {lead tail : List SystemOperation} (h : Unridden (lead ++ tail)) :
    Unridden tail := (List.isChain_append.mp h).2.1

/-- **The commit fold admits the slab**: each run, the first with the riders that lead it, is one
establishing operation with its riders, and no scaling shares its run with a rider. -/
def Foldable (ops : List SystemOperation) : Prop :=
  ops = [] ∨ ∃ lead op rest, ops = lead ++ op :: rest ∧ Riding lead ∧ op.isNominate = false ∧
    (lead = [] ∨ op.isScaling = false) ∧ Unridden (op :: rest)

/-- One operation off a slab, at the head of a run. -/
theorem Stamped.first {last : Nat} {c established : Configuration} {op : SystemOperation}
    {ops : List SystemOperation} {stamps : List Nat}
    (h : Stamped last c (op :: ops) stamps established)
    (hhead : op.isNominate = true → last < c.era) :
    ∃ stamp later c', stamps = stamp :: later ∧ stamp < c'.era ∧
      Stamped stamp c' ops later established := by
  cases h with
  | rider hoffset hrest => exact ⟨last, _, c, rfl, hhead rfl, hrest⟩
  | establishing hop happly hera hrest => exact ⟨c.era, _, _, rfl, Nat.lt_succ_self _, hrest⟩

section Fold

variable {read : Nat → Option LogEntry} {fuel through last : Nat} {current : Ballot}
  {ops : List SystemOperation} {stamps : List Nat} {c established : Configuration}

/-- **A fold of a slab from the head of a run establishes as many eras as the slab counts, or
more**; as many only where each run is one establishing operation with its riders. -/
theorem fold_counts {folding folded : Folding} (hstamped : Stamped last c ops stamps established)
    (hhead : ∀ op ∈ ops.head?, op.isNominate = true → last < c.era)
    (hheld : Held read folding.covered ops stamps) (hends : Ends read folding.covered last stamps)
    (hfuel : ops.length ≤ fuel) (hthrough : through = folding.covered + ops.length)
    (hsound : folding.table.Sound folding.covered)
    (h : foldRest read fuel current through false folding = .ok folded) :
    folding.table.current.config.era + eraCount ops ≤ folded.table.current.config.era ∧
      (folded.table.current.config.era = folding.table.current.config.era + eraCount ops →
        Unridden ops ∧ ∀ op ∈ ops.head?, op.isNominate = false) := by
  induction hn : ops.length using Nat.strong_induction_on
    generalizing ops stamps c last folding with
  | _ n ih =>
    subst hn
    cases ops with
    | nil =>
      rw [foldRest, foldSlotsThrough_done (by rw [hthrough]; exact Nat.le_refl _)] at h
      cases h
      exact ⟨Nat.le_refl _, fun _ => ⟨List.isChain_nil, by simp⟩⟩
    | cons op rest =>
      obtain ⟨lead, tail, rfl, hlead, htail⟩ := exists_riders rest
      obtain ⟨stamp, later, c', rfl, hstamp, hrest⟩ := hstamped.first (hhead op rfl)
      obtain ⟨hslot, hread, hbehind⟩ := hheld
      rw [List.length_cons, List.length_append] at hfuel hthrough
      obtain ⟨later', htailStamped, htailHeld, htailEnds, hrun⟩ :=
        runAfter_riders fuel hlead hrest hbehind hends.tail (by omega)
      rw [runAfter_ends htailStamped htail htailHeld htailEnds fun _ => hstamp,
        List.append_nil] at hrun
      rw [foldRest_run (by omega) hread rfl, hrun] at h
      split at h
      · cases h
      · rename_i extended taken slot hextend
        rw [Bool.false_and, if_neg Bool.false_ne_true] at h
        rcases extendRun_cases hextend with ⟨hone, rfl, rfl⟩ | ⟨hsome, hwithin, hbatch, rfl, rfl⟩
        · -- the operation alone: an establishing one, and its riders are left to the next run
          have hop : op.isNominate = false := by
            by_contra hrider
            exact EraTable.not_extend_rider (Bool.not_eq_false _ ▸ hrider) hone
          obtain ⟨hcount, honly⟩ := ih (lead ++ tail).length (by rw [List.length_cons]; omega)
            hrest (fun _ _ _ => hstamp) hbehind hends.tail
            (by rw [List.length_append]; omega)
            (by
              rw [List.length_append]
              show through = folding.covered + 1 + _
              omega)
            (hsound.extend (Nat.lt_succ_self _) hone) h rfl
          have hera := hsound.extend_era (Nat.lt_succ_self _) hone
          rw [eraCount_cons, hop, if_neg Bool.false_ne_true]
          simp only [hera] at hcount honly
          refine ⟨by omega, fun heq => ?_⟩
          obtain ⟨hunridden, hnext⟩ := honly (by omega)
          refine ⟨hunridden.cons fun next hmem _ => hnext next hmem, fun other hmem => ?_⟩
          cases hmem
          exact hop
        · -- the batch of the run
          obtain ⟨hcount, honly⟩ := ih tail.length
            (by rw [List.length_cons, List.length_append]; omega)
            htailStamped (fun _ _ _ => hstamp) htailHeld htailEnds (by omega)
            (by
              show through = folding.covered + 1 + lead.length + _
              omega)
            ((hsound.extend (Nat.lt_succ_self _) hbatch).later (Nat.le_add_right _ _)) h rfl
          have hera := hsound.extend_era (Nat.lt_succ_self _) hbatch
          simp only [hera] at hcount honly
          rw [eraCount_cons, eraCount_append, hlead.eraCount]
          cases hop : op.isNominate with
          | true =>
            rw [if_pos rfl]
            exact ⟨by omega, fun heq => by omega⟩
          | false =>
            rw [if_neg Bool.false_ne_true]
            refine ⟨by omega, fun heq => ?_⟩
            obtain ⟨hunridden, -⟩ := honly (by omega)
            have hscaling := Configuration.isScaling_of_batch (EraTable.apply_of_extend hbatch)
              (by
                rw [List.length_cons]
                exact Nat.succ_lt_succ (List.length_pos_of_ne_nil hsome)) op List.mem_cons_self
            refine ⟨(hunridden.behind_riders hlead).cons fun next _ hop => ?_, fun other hmem => ?_⟩
            · rw [hscaling] at hop
              cases hop
            · cases hmem
              exact hop

/-- What the extension of an accepted run makes of the table. -/
theorem extendRun_of_apply {table : EraTable} {op : SystemOperation} {follow : List SystemOperation}
    {config : Configuration} {slot : Nat} (hwithin : slot + follow.length ≤ through)
    (h : table.current.config.apply (runOperation op follow) slot = .ok config) :
    ∃ extended, extendRun table op follow slot through =
        .ok (extended, op :: follow, slot + follow.length) ∧
      table.extend (runOperation op follow) slot = .ok extended ∧
      extended.current.config = config := by
  obtain ⟨extended, hextended, hconfig, -⟩ := EraTable.extend_of_apply h
  refine ⟨extended, ?_, hextended, hconfig⟩
  unfold extendRun
  unfold runOperation at hextended
  cases follow with
  | nil =>
    simp only [List.isEmpty_nil, if_true] at hextended ⊢
    rw [hextended]
    rfl
  | cons next follow =>
    simp only [List.isEmpty_cons, Bool.false_eq_true, if_false] at hextended ⊢
    rw [if_neg (by omega), hextended]

/-- One step of a fold over an accepted run: it goes on behind the run, or the era window stops
it. -/
theorem foldRest_accepted (current : Ballot) (through : Nat) (paced : Bool) {folding : Folding}
    {entry : LogEntry} {op : SystemOperation} {follow : List SystemOperation}
    {config : Configuration}
    (hread : read (folding.covered + 1) = some entry) (hpayload : entry.payload = .system op)
    (hfollow : runAfter read entry.era fuel (folding.covered + 1) = follow)
    (hwithin : folding.covered + 1 + follow.length ≤ through)
    (happly : folding.table.current.config.apply (runOperation op follow) (folding.covered + 1) =
      .ok config)
    (hsound : folding.table.Sound folding.covered) :
    ∃ later : Folding, later.covered = folding.covered + 1 + follow.length ∧
      later.table.Sound later.covered ∧ later.table.current.config = config ∧
      ((∃ folded, foldRest read fuel current through paced folding = .ok folded ∧
          folded.stopped = true) ∨
        foldRest read fuel current through paced folding =
          foldRest read fuel current through paced later) := by
  obtain ⟨extended, hrun, hextended, hconfig⟩ := extendRun_of_apply hwithin happly
  have hgrown := (hsound.extend (Nat.lt_succ_self _) hextended).later
    (Nat.le_add_right _ follow.length)
  rw [foldRest_run (by omega) hread hpayload, hfollow, hrun]
  by_cases hspent : (paced && windowSpent current folding.running
      (runNominations folding.running (op :: follow) extended.current.era)
      extended.current.era) = true
  · refine ⟨{ folding with table := extended, covered := _ }, rfl, hgrown, hconfig, .inl ?_⟩
    simp only [hspent, if_true]
    exact ⟨_, rfl, rfl⟩
  · refine ⟨{ folding with
      table := extended, covered := folding.covered + 1 + follow.length
      running := runNominations folding.running (op :: follow) extended.current.era },
      rfl, hgrown, hconfig, .inr ?_⟩
    simp only [hspent]
    rfl

/-- **A fold of runs the batch rule admits lands where the slab does**, unless the era window
stops it. -/
theorem fold_lands {paced : Bool} {folding : Folding}
    (hstamped : Stamped last c ops stamps established) (hunridden : Unridden ops)
    (hhead : ∀ op ∈ ops.head?, op.isNominate = false) (hheld : Held read folding.covered ops stamps)
    (hends : Ends read folding.covered last stamps) (hfuel : ops.length ≤ fuel)
    (hthrough : through = folding.covered + ops.length)
    (hsound : folding.table.Sound folding.covered) (hconfig : folding.table.current.config = c) :
    ∃ folded, foldRest read fuel current through paced folding = .ok folded ∧
      (folded.stopped = false →
        folded.covered = through ∧ folded.table.current.config = established) := by
  induction hn : ops.length using Nat.strong_induction_on
    generalizing ops stamps c last folding with
  | _ n ih =>
    subst hn
    cases hstamped with
    | nil =>
      exact ⟨folding, foldSlotsThrough_done (by rw [hthrough]; exact Nat.le_refl _),
        fun _ => ⟨hthrough.symm, hconfig⟩⟩
    | rider => exact absurd (hhead _ rfl) Bool.noConfusion
    | @establishing _ _ next _ op rest later hop happly hera hrest =>
      obtain ⟨lead, tail, rfl, hlead, htail⟩ := exists_riders rest
      obtain ⟨hslot, hread, hbehind⟩ := hheld
      rw [List.length_cons, List.length_append] at hfuel hthrough
      obtain ⟨later', htailStamped, htailHeld, htailEnds, hrun⟩ :=
        runAfter_riders fuel hlead hrest hbehind hends.tail (by omega)
      rw [runAfter_ends htailStamped htail htailHeld htailEnds fun _ => Nat.lt_succ_self _,
        List.append_nil] at hrun
      subst hconfig
      have hwell := hsound.reachable.wellFormed
      have hne := (Configuration.Voting.mk hwell.nodup hsound.total_pos).order_ne
      have haccepted : folding.table.current.config.apply (runOperation op lead)
          (folding.covered + 1) =
          .ok { next with era := folding.table.current.config.era + 1 } := by
        unfold runOperation
        cases lead with
        | nil =>
          exact (Configuration.apply_single (Configuration.isSingle_of_applyInEra happly)).mpr
            ⟨hop, hne, hera, next, happly, rfl⟩
        | cons rider lead =>
          have hscaling : op.isScaling = false := by
            by_contra hscaling
            have hnot := (List.isChain_cons.mp hunridden).1 rider rfl
              (Bool.not_eq_false _ ▸ hscaling)
            rw [hlead rider List.mem_cons_self] at hnot
            cases hnot
          obtain ⟨-, -, hriders, -⟩ := hrest.past_riders hlead
          exact Configuration.apply_ridden_run hwell hne _
            (fun _ hmem => absurd hmem List.not_mem_nil) hlead (fun _ => rfl) hriders hscaling
            happly hera
      obtain ⟨behind, hcovered, hgrown, hconfig, hstop | hgoes⟩ :=
        foldRest_accepted current through paced hread rfl hrun
          (by omega) haccepted hsound
      · obtain ⟨folded, hfolded, hstopped⟩ := hstop
        exact ⟨folded, hfolded, fun hnot => by rw [hstopped] at hnot; cases hnot⟩
      · rw [hgoes]
        refine ih tail.length (by rw [List.length_cons, List.length_append]; omega) htailStamped
          (Unridden.behind (List.isChain_cons.mp hunridden).2) htail ?_ ?_ (by omega) ?_ hgrown
          hconfig rfl
        · rw [hcovered]
          exact htailHeld
        · rw [hcovered]
          exact htailEnds
        · omega

/-! ### A slab that riders lead -/

/-- A rider at the head carries the head era, and so does the first establishing operation: the
run goes on to the riders behind it. -/
theorem runAfter_head (fuel : Nat) {lead riders tail : List SystemOperation}
    {op : SystemOperation} {slot : Nat}
    (hlead : Riding lead) (hop : op.isNominate = false) (hriders : Riding riders)
    (htail : ∀ next ∈ tail.head?, next.isNominate = false)
    (h : Stamped c.era c (lead ++ op :: (riders ++ tail)) stamps established)
    (hheld : Held read slot (lead ++ op :: (riders ++ tail)) stamps)
    (hends : Ends read slot c.era stamps) (hfuel : lead.length + riders.length < fuel) :
    ∃ next later, c.applyInEra op = .ok next ∧ c.era + 1 < u32Bound ∧
      (∀ d : Configuration, d.applyAllInEra riders = .ok d) ∧
      Stamped c.era { next with era := c.era + 1 } tail later established ∧
      Held read (slot + (lead ++ op :: riders).length) tail later ∧
      Ends read (slot + (lead ++ op :: riders).length) c.era later ∧
      runAfter read c.era fuel slot = lead ++ op :: riders := by
  obtain ⟨later, hlater, hheld', hends', hrun⟩ :=
    runAfter_riders fuel hlead h hheld hends (by omega)
  cases hlater with
  | rider => cases hop
  | @establishing _ _ next _ _ _ later _ happly hera hrest =>
    obtain ⟨hslot, hread, hbehind⟩ := hheld'
    obtain ⟨-, -, hinert, -⟩ := hrest.past_riders hriders
    obtain ⟨behind, hstamped, hheld'', hends'', hrun'⟩ :=
      runAfter_riders (fuel - lead.length - 1) hriders hrest hbehind hends'.tail (by omega)
    rw [runAfter_ends hstamped htail hheld'' hends'' fun _ => Nat.lt_succ_self _,
      List.append_nil] at hrun'
    have hshift : slot + (lead ++ op :: riders).length =
        slot + lead.length + 1 + riders.length := by
      rw [List.length_append, List.length_cons]
      omega
    refine ⟨next, behind, happly, hera, hinert, hstamped, hshift ▸ hheld'', hshift ▸ hends'', ?_⟩
    rw [hrun, show fuel - lead.length = fuel - lead.length - 1 + 1 by omega,
      runAfter_cons hslot hread, hrun']

/-- Riders alone are refused, or they establish an era of their own. -/
theorem foldRest_riders (folding : Folding) {rider : SystemOperation}
    {lead : List SystemOperation} {folded : Folding} (hlead : Riding (rider :: lead))
    (hstamped : Stamped c.era c (rider :: lead) stamps established)
    (hheld : Held read folding.covered (rider :: lead) stamps)
    (hends : Ends read folding.covered c.era stamps) (hfuel : (rider :: lead).length ≤ fuel)
    (hthrough : through = folding.covered + (rider :: lead).length)
    (hsound : folding.table.Sound folding.covered)
    (h : foldRest read fuel current through false folding = .ok folded) :
    folded.table.current.config.era = folding.table.current.config.era + 1 := by
  have hrider := hlead rider List.mem_cons_self
  have hlead' : Riding lead := fun other hmem => hlead other (List.mem_cons_of_mem _ hmem)
  cases hstamped with
  | establishing hnot =>
    rw [hrider] at hnot
    cases hnot
  | rider hoffset hrest =>
    obtain ⟨hslot, hread, hbehind⟩ := hheld
    rw [List.length_cons] at hfuel hthrough
    rw [foldRest_run (by omega) hread rfl] at h
    split at h
    · cases h
    · rename_i extended taken slot hextend
      rw [Bool.false_and, if_neg Bool.false_ne_true] at h
      rcases extendRun_cases hextend with ⟨hone, -, -⟩ | ⟨-, -, hbatch, rfl, rfl⟩
      · exact absurd hone (EraTable.not_extend_rider rfl)
      · rw [← List.append_nil lead] at hrest hbehind
        obtain ⟨later, hlater, -, hends', hrun⟩ :=
          runAfter_riders fuel hlead' hrest hbehind hends.tail (by omega)
        cases hlater
        rw [runAfter_ends (c := c) .nil (by simp) trivial hends' (fun hne => absurd rfl hne),
          List.append_nil] at hrun
        rw [hrun, foldRest, foldSlotsThrough_done (by
          rw [hthrough]
          show _ ≤ folding.covered + 1 + lead.length
          omega)] at h
        cases h
        exact hsound.extend_era (Nat.lt_succ_self _) hbatch

/-- **As many eras as the slab counts are established only where the batch rule admits its
runs.** -/
theorem foldable_of_fold (folding : Folding) {folded : Folding}
    (hstamped : Stamped c.era c ops stamps established)
    (hheld : Held read folding.covered ops stamps)
    (hends : Ends read folding.covered c.era stamps) (hfuel : ops.length ≤ fuel)
    (hthrough : through = folding.covered + ops.length)
    (hsound : folding.table.Sound folding.covered)
    (h : foldRest read fuel current through false folding = .ok folded)
    (heras : folded.table.current.config.era =
      folding.table.current.config.era + eraCount ops) : Foldable ops := by
  obtain ⟨lead, tail, rfl, hlead, htail⟩ := exists_riders ops
  cases lead with
  | nil =>
    have hnone : ∀ op ∈ ([] ++ tail).head?, op.isNominate = true → c.era < c.era := by
      intro op hmem hop
      rw [htail op hmem] at hop
      cases hop
    obtain ⟨hunridden, -⟩ :=
      (fold_counts hstamped hnone hheld hends hfuel hthrough hsound h).2 heras
    cases tail with
    | nil => exact .inl rfl
    | cons op rest =>
      exact .inr ⟨[], op, rest, rfl, hlead, htail op rfl, .inl rfl, hunridden⟩
  | cons rider lead =>
    cases tail with
    | nil =>
      rw [List.append_nil] at hstamped hheld hfuel hthrough heras
      have hera := foldRest_riders folding hlead hstamped hheld hends hfuel hthrough hsound h
      rw [hera, hlead.eraCount] at heras
      omega
    | cons op rest =>
      have hrider := hlead rider List.mem_cons_self
      have hlead' : Riding lead := fun other hmem => hlead other (List.mem_cons_of_mem _ hmem)
      cases hstamped with
      | establishing hnot =>
        rw [hrider] at hnot
        cases hnot
      | rider hoffset hrest =>
      obtain ⟨hslot, hread, hbehind⟩ := hheld
      rw [List.length_append, List.length_cons] at hfuel hthrough
      rw [foldRest_run (by omega) hread rfl] at h
      rw [eraCount_append, hlead.eraCount, Nat.zero_add] at heras
      obtain ⟨riders, tail, rfl, hriders, htail'⟩ := exists_riders rest
      have hop := htail op rfl
      rw [List.length_cons, List.length_append] at hfuel hthrough
      obtain ⟨next, later, -, -, -, hlater, hheld', hends', hrun⟩ :=
        runAfter_head fuel hlead' hop hriders htail' hrest hbehind hends.tail (by omega)
      rw [hrun] at h
      split at h
      · cases h
      · rename_i extended taken slot hextend
        rw [Bool.false_and, if_neg Bool.false_ne_true] at h
        rcases extendRun_cases hextend with ⟨hone, -, -⟩ | ⟨-, -, hbatch, rfl, rfl⟩
        · exact absurd hone (EraTable.not_extend_rider rfl)
        · have hera := hsound.extend_era (Nat.lt_succ_self _) hbatch
          have hscaling := Configuration.isScaling_of_batch (EraTable.apply_of_extend hbatch)
            (by simp) op (List.mem_cons_of_mem _ (List.mem_append_right _ List.mem_cons_self))
          obtain ⟨-, honly⟩ := fold_counts hlater (fun _ _ _ => Nat.lt_succ_self _)
            hheld' hends' (by omega)
            (by
              show through = folding.covered + 1 + (lead ++ op :: riders).length + _
              rw [List.length_append, List.length_cons]
              omega)
            ((hsound.extend (Nat.lt_succ_self _) hbatch).later (Nat.le_add_right _ _)) h
          rw [eraCount_cons, hop, if_neg Bool.false_ne_true, eraCount_append,
            hriders.eraCount] at heras
          obtain ⟨hunridden, -⟩ := honly (by
            show folded.table.current.config.era = extended.current.config.era + eraCount tail
            omega)
          refine .inr ⟨_ :: lead, op, riders ++ tail, rfl, hlead, hop, .inr hscaling,
            (hunridden.behind_riders hriders).cons fun _ _ hscaled => ?_⟩
          rw [hscaling] at hscaled
          cases hscaled

/-- **A slab of such runs lands where its acceptance did.** -/
theorem fold_foldable {paced : Bool} (folding : Folding)
    (hstamped : Stamped c.era c ops stamps established) (hfoldable : Foldable ops)
    (hheld : Held read folding.covered ops stamps) (hends : Ends read folding.covered c.era stamps)
    (hfuel : ops.length ≤ fuel) (hthrough : through = folding.covered + ops.length)
    (hsound : folding.table.Sound folding.covered) (hconfig : folding.table.current.config = c) :
    ∃ folded, foldRest read fuel current through paced folding = .ok folded ∧
      (folded.stopped = false →
        folded.covered = through ∧ folded.table.current.config = established) := by
  rcases hfoldable with rfl | ⟨lead, op, rest, rfl, hlead, hop, hscaling, hunridden⟩
  · exact fold_lands hstamped List.isChain_nil (by simp) hheld hends hfuel hthrough hsound hconfig
  cases lead with
  | nil =>
    refine fold_lands hstamped hunridden (fun other hmem => ?_) hheld hends hfuel hthrough hsound
      hconfig
    cases hmem
    exact hop
  | cons rider lead =>
    have hscaling' := hscaling.resolve_left (List.cons_ne_nil _ _)
    have hlead' : Riding lead := fun other hmem => hlead other (List.mem_cons_of_mem _ hmem)
    obtain ⟨-, -, hbefore, -⟩ := hstamped.past_riders hlead
    obtain ⟨riders, tail, rfl, hriders, htail⟩ := exists_riders rest
    rw [List.length_append, List.length_cons, List.length_cons, List.length_append]
      at hfuel hthrough
    cases hstamped with
    | establishing hnot =>
      rw [hlead rider List.mem_cons_self] at hnot
      cases hnot
    | rider hoffset hrest =>
      obtain ⟨hslot, hread, hbehind⟩ := hheld
      obtain ⟨next, later, happly, hera, hinert, hlater, hheld', hends', hrun⟩ :=
        runAfter_head fuel hlead' hop hriders htail hrest hbehind hends.tail (by omega)
      subst hconfig
      have hwell := hsound.reachable.wellFormed
      have haccepted := Configuration.apply_ridden_run hwell
        (Configuration.Voting.mk hwell.nodup hsound.total_pos).order_ne (folding.covered + 1) hlead
        hriders hbefore hinert hscaling' happly hera
      obtain ⟨behind, hcovered, hgrown, hbehindConfig, hstop | hgoes⟩ :=
        foldRest_accepted current through paced hread rfl hrun
          (by
            rw [List.length_append, List.length_cons]
            omega)
          (by
            rw [runOperation, if_neg (by simp)]
            exact haccepted) hsound
      · obtain ⟨folded, hfolded, hstopped⟩ := hstop
        exact ⟨folded, hfolded, fun hnot => by rw [hstopped] at hnot; cases hnot⟩
      · rw [hgoes]
        rw [List.length_append, List.length_cons] at hcovered
        refine fold_lands hlater (Unridden.behind (List.isChain_cons.mp hunridden).2) htail ?_ ?_
          (by omega) ?_ hgrown hbehindConfig
        · rw [hcovered, ← List.length_cons, ← List.length_append]
          exact hheld'
        · rw [hcovered, ← List.length_cons, ← List.length_append]
          exact hends'
        · omega

end Fold

/-! ### The commit of an accepted slab -/

namespace Replica

variable {J : Type} [Journal J]

/-- More rounds than the slots of a slab. -/
theorem length_le_runFuel [LawfulJournal J] {r : Replica J} {overlay : List LogEntry}
    {ops : List SystemOperation} {stamps : List Nat} {start : Nat}
    (hlength : stamps.length = ops.length)
    (hheld : Held (merged r.journal overlay) start ops stamps) :
    ops.length ≤ r.runFuel overlay := by
  have hslots : ∀ i < ops.length,
      ∃ entry, merged r.journal overlay (start + 1 + i) = some entry := by
    intro i hi
    induction ops generalizing start stamps i with
    | nil => cases hi
    | cons op ops ih =>
      cases stamps with
      | nil => cases hlength
      | cons era stamps =>
        obtain ⟨-, hread, hrest⟩ := hheld
        cases i with
        | zero => exact ⟨_, hread⟩
        | succ i =>
          obtain ⟨entry, hentry⟩ :=
            ih (Nat.succ.inj hlength) hrest i (Nat.lt_of_succ_lt_succ hi)
          exact ⟨entry, by rw [← hentry]; congr 1; omega⟩
  -- each slot is one of the overlay's, or one the journal accepted
  have hsubset : List.range' (start + 1) ops.length ⊆
      overlay.map LogEntry.slot ++ List.range' 1 ((Journal.accepted r.journal).getD 0) := by
    intro slot hmem
    obtain ⟨i, hi, rfl⟩ := List.mem_range'.mp hmem
    obtain ⟨entry, hentry⟩ := hslots i hi
    rw [Nat.one_mul]
    rw [merged] at hentry
    split at hentry
    · rename_i found hfound
      refine List.mem_append_left _ (List.mem_map.mpr ⟨found, List.mem_of_find?_eq_some hfound, ?_⟩)
      simpa using List.find?_some hfound
    · obtain ⟨frontier, haccepted, hle⟩ := LawfulJournal.get_le hentry
      refine List.mem_append_right _ (List.mem_range'_1.mpr ?_)
      rw [haccepted, Option.getD_some]
      omega
  have hcount := (List.subperm_of_subset List.nodup_range' hsubset).length_le
  rw [List.length_append, List.length_map, List.length_range', List.length_range'] at hcount
  unfold runFuel
  omega

/-- **The commit of a slab lands in a configuration**: paced or not, no fold over its slots is
refused, and one that the era window does not stop covers them and ends there. -/
def CommitsTo (r : Replica J) (overlay : List LogEntry) (start through : Nat)
    (established : Configuration) : Prop :=
  ∀ paced, ∃ folded, r.foldCommitted overlay start through paced = .ok folded ∧
    (folded.stopped = false →
      folded.covered = through ∧ folded.config.current.config = established)

/-- What the fold of a commit shares with the fold of the rest behind its start. -/
theorem commitsTo_iff {r : Replica J} {overlay : List LogEntry} {start through : Nat}
    {established : Configuration} :
    r.CommitsTo overlay start through established ↔ ∀ paced, ∃ folded,
      foldRest (merged r.journal overlay) (r.runFuel overlay) r.progress.current through paced
          (r.folding start) = .ok folded ∧
        (folded.stopped = false →
          folded.covered = through ∧ folded.table.current.config = established) := by
  unfold CommitsTo
  refine forall_congr' fun paced => ?_
  rw [foldCommitted_eq]
  constructor
  · rintro ⟨committed, hfold, hlands⟩
    obtain ⟨folded, hfolded, rfl⟩ : ∃ folded, foldSlotsThrough (merged r.journal overlay)
        (r.runFuel overlay) r.progress.current through paced (through - start) (r.folding start) =
          .ok folded ∧ _ = committed := by
      cases hrest : foldSlotsThrough (merged r.journal overlay) (r.runFuel overlay)
          r.progress.current through paced (through - start) (r.folding start) with
      | error error =>
        rw [hrest] at hfold
        cases hfold
      | ok folded =>
        rw [hrest] at hfold
        exact ⟨folded, rfl, Except.ok.inj hfold⟩
    exact ⟨folded, hfolded, hlands⟩
  · rintro ⟨folded, hfolded, hlands⟩
    rw [foldRest] at hfolded
    change foldSlotsThrough _ _ _ _ _ (through - start) _ = _ at hfolded
    rw [hfolded]
    exact ⟨_, rfl, hlands⟩

/-- **Acceptance and commit agree on a slab exactly where the batch rule admits its runs.** The
slab's entries stand behind `start` in the log of a node whose table, sound up to `start`, ends
with the configuration that the slab was accepted over, and no system entry behind them carries
on the last run. -/
theorem foldSlots_commits_iff [LawfulJournal J] {r : Replica J} {overlay entries : List LogEntry}
    {start : Nat} {ops : List SystemOperation} {stamps : List Nat} {established : Configuration}
    (hsound : r.progress.config.Sound start)
    (haccepted : r.progress.config.current.config.foldSlots ops = .ok (stamps, established))
    (hentries : slabEntries (start + 1) ops stamps = .ok entries)
    (hheld : ∀ entry ∈ entries, merged r.journal overlay entry.slot = some entry)
    (hends : ∀ entry, merged r.journal overlay (start + ops.length + 1) = some entry →
      stamps.getLast? = some entry.era → entry.payload.isSystem = false) :
    (StampsAgree r.progress.config.current.config.era ops stamps ∧
        r.CommitsTo overlay start (start + ops.length) established) ↔ Foldable ops := by
  have hstamped := stamped_of_foldSlots hsound.reachable.wellFormed haccepted
  have hlength := hstamped.length
  have hslots := held_of_slabEntries hlength hentries hheld
  have hfuel := length_le_runFuel hlength hslots
  rw [and_iff_right hstamped.stampsAgree, commitsTo_iff]
  by_cases hempty : ops = []
  · subst hempty
    cases hstamped
    refine iff_of_true (fun paced => ⟨r.folding start, foldSlotsThrough_done (Nat.le_refl _),
      fun _ => ⟨rfl, rfl⟩⟩) (.inl rfl)
  · have hbehind : Ends (merged r.journal overlay) start
        r.progress.config.current.config.era stamps := by
      intro entry hentry hera
      refine hends entry (by rw [← hlength]; exact hentry) ?_
      have hsome : stamps ≠ [] := fun hnil => hempty (List.length_eq_zero_iff.mp
        (by rw [← hlength, hnil]; rfl))
      rw [← hera, List.getLast?_cons]
      cases hlast : stamps.getLast? with
      | none => exact absurd (List.getLast?_eq_none_iff.mp hlast) hsome
      | some stamp => rfl
    constructor
    · intro hcommits
      obtain ⟨folded, hfolded, hlands⟩ := hcommits false
      obtain ⟨-, hconfig⟩ := hlands (foldSlotsThrough_unpaced hfolded)
      exact foldable_of_fold (r.folding start) hstamped hslots hbehind hfuel rfl hsound
        hfolded (by rw [hconfig]; exact hstamped.era)
    · exact fun hfoldable paced => fold_foldable (r.folding start) hstamped hfoldable
        hslots hbehind hfuel rfl hsound rfl

/-! ### Two slabs at the genesis primary -/

/-- An operation and its rider, as a slab journals them behind the genesis slots. -/
def riddenEntries (op : SystemOperation) : List LogEntry :=
  [{ slot := 3, era := 1, payload := .system op },
    { slot := 4, era := 1, payload := .system (.nominate 0 1) }]

/-- The genesis configuration of the three nodes. -/
theorem slabPrimary_sound : ∃ r, slabPrimary = some r ∧ r.Reached ∧ r.progress.config.Sound 2 ∧
    r.progress.config.current.config = { era := 1, order := [⟨1, 1⟩, ⟨2, 1⟩, ⟨3, 1⟩] } ∧
    Journal.get r.journal 5 = none := by
  have hrun : (slabPrimary.map fun r => (r.progress.config.current.config, r.progress.committed,
      Journal.get r.journal 5)) =
      some ({ era := 1, order := [⟨1, 1⟩, ⟨2, 1⟩, ⟨3, 1⟩] }, 2, none) := by decide +kernel
  obtain ⟨r, hr, heq⟩ := Option.map_eq_some_iff.mp hrun
  rw [Prod.mk.injEq, Prod.mk.injEq] at heq
  have hreached := slabPrimary_reached hr
  have hsound : r.progress.config.Sound r.progress.committed := hreached.tabled.published
  rw [heq.2.1] at hsound
  exact ⟨r, hr, hreached, hsound, heq.1, heq.2.2⟩

/-- A join with its rider commits where it was accepted. -/
theorem foldSlots_commits_join : ∃ (r : Replica SegmentedLog) (established : Configuration),
    r.Reached ∧ StampsAgree r.progress.config.current.config.era
        [.join 4 3, .nominate 0 1] [1, 1] ∧
      r.CommitsTo (riddenEntries (.join 4 3)) 2 4 established := by
  obtain ⟨r, -, hreached, hsound, hconfig, hbehind⟩ := slabPrimary_sound
  have haccepted : r.progress.config.current.config.foldSlots [.join 4 3, .nominate 0 1] =
      .ok ([1, 1], { era := 2, order := [⟨1, 1⟩, ⟨2, 1⟩, ⟨3, 1⟩, ⟨4, 0⟩] }) := by
    rw [hconfig]
    decide
  have hentries : slabEntries (2 + 1) [.join 4 3, .nominate 0 1] [1, 1] =
      .ok (riddenEntries (.join 4 3)) := by decide
  refine ⟨r, _, hreached, (foldSlots_commits_iff hsound haccepted hentries
    (fun entry hmem => ?_) (fun entry hentry => ?_)).mpr ?_⟩
  · unfold riddenEntries at hmem ⊢
    simp only [List.mem_cons, List.not_mem_nil, or_false] at hmem
    rcases hmem with rfl | rfl <;> rfl
  · have hnone : merged r.journal (riddenEntries (.join 4 3)) 5 = none := hbehind
    rw [show 2 + [SystemOperation.join 4 3, .nominate 0 1].length + 1 = 5 from rfl, hnone] at hentry
    cases hentry
  · exact .inr ⟨[], .join 4 3, [.nominate 0 1], rfl,
      fun _ hmem => absurd hmem List.not_mem_nil, rfl, .inl rfl,
      List.isChain_pair.mpr fun h => by cases h⟩

/-- **A doubling with its rider is accepted and cannot commit**: alone the doubling folds, and the
rider behind it is refused. -/
theorem doubling_ridden_refused : ∃ (r : Replica SegmentedLog) (established : Configuration),
    r.Reached ∧ r.progress.config.Sound 2 ∧
      r.progress.config.current.config.foldSlots [.double, .nominate 0 1] =
        .ok ([1, 1], established) ∧
      slabEntries 3 [.double, .nominate 0 1] [1, 1] = .ok (riddenEntries .double) ∧
      r.foldCommitted (riddenEntries .double) 2 4 false =
        .error (.breach 4 .solitaryNomination) := by
  obtain ⟨r, hr, hreached, hsound, hconfig, -⟩ := slabPrimary_sound
  have hfold : (slabPrimary.map fun r =>
      (r.foldCommitted (riddenEntries .double) 2 4 false).map fun _ => ()) =
      some (.error (.breach 4 .solitaryNomination)) := by decide +kernel
  refine ⟨r, { era := 2, order := [⟨1, 2⟩, ⟨2, 2⟩, ⟨3, 2⟩] }, hreached, hsound, ?_, by decide, ?_⟩
  · rw [hconfig]
    decide
  · rw [hr, Option.map_some, Option.some.injEq] at hfold
    cases hcommitted : r.foldCommitted (riddenEntries .double) 2 4 false with
    | ok folded =>
      rw [hcommitted] at hfold
      cases hfold
    | error error =>
      rw [hcommitted] at hfold
      exact congrArg Except.error (Except.error.inj hfold)

end Replica

end UvrrCore
