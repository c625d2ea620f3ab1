import UvrrCore.Tables

/-!
# Slabs of eras

A slab of establishing operations, each with its nomination at the next slot, commits era by era:
the entries of one pair carry one stamp, so each pair folds as one batch and the ballot moves on
with it (`fold_laid`). A commit that covers the whole slab has to pass the transition rules. They
walk the eras from the ballot before to the ballot behind the slab, and the table keeps records of
the last two only.
-/

namespace UvrrCore

/-- An establishing operation of a slab and the nomination that rides at the next slot. -/
structure FusedPair where
  op : SystemOperation
  start : Nat
  offset : Nat

def FusedPair.ops (pair : FusedPair) : List SystemOperation :=
  [pair.op, .nominate pair.start pair.offset]

def slabOps (pairs : List FusedPair) : List SystemOperation := pairs.flatMap FusedPair.ops

/-- Each nomination names the view the one before it leads to. -/
def Matching : (view : Nat) → List FusedPair → Prop
  | _, [] => True
  | view, pair :: rest =>
    pair.start = view ∧ pair.start + pair.offset < u32Bound ∧
      Matching (pair.start + pair.offset) rest

instance decMatching : (view : Nat) → (pairs : List FusedPair) → Decidable (Matching view pairs)
  | _, [] => isTrue trivial
  | view, pair :: rest =>
    have := decMatching (pair.start + pair.offset) rest
    inferInstanceAs (Decidable (pair.start = view ∧ pair.start + pair.offset < u32Bound ∧
      Matching (pair.start + pair.offset) rest))

/-- **The entries of a slab of pairs** from a slot on, over a configuration. Both entries of a pair
carry the era before it. -/
inductive Laid : Configuration → Nat → List FusedPair → List LogEntry → Prop
  | nil {c : Configuration} {slot : Nat} : Laid c slot [] []
  | cons {c next : Configuration} {slot : Nat} {pair : FusedPair} {pairs : List FusedPair}
      {rest : List LogEntry} (hop : pair.op.isNominate = false)
      (happly : c.applyInEra pair.op = .ok next) (hoffset : pair.offset ≠ 0)
      (hera : c.era + 1 < u32Bound) (hslot : slot + 1 < u64Bound)
      (hrest : Laid { next with era := c.era + 1 } (slot + 2) pairs rest) :
      Laid c slot (pair :: pairs)
        ({ slot := slot, era := c.era, payload := .system pair.op } ::
          { slot := slot + 1, era := c.era
            payload := .system (.nominate pair.start pair.offset) } :: rest)

theorem Laid.length {c : Configuration} {slot : Nat} {pairs : List FusedPair}
    {entries : List LogEntry} (h : Laid c slot pairs entries) :
    entries.length = 2 * pairs.length := by
  induction h with
  | nil => rfl
  | cons hop happly hoffset hera hslot hrest ih =>
    simp only [List.length_cons, ih]
    omega

theorem Laid.era_bound {c : Configuration} {slot : Nat} {pairs : List FusedPair}
    {entries : List LogEntry} (h : Laid c slot pairs entries) (hsome : pairs ≠ []) :
    c.era + pairs.length < u32Bound := by
  induction h with
  | nil => exact absurd rfl hsome
  | @cons c next slot pair pairs rest hop happly hoffset hera hslot hrest ih =>
    cases pairs with
    | nil => exact hera
    | cons pair' pairs' =>
      have hlater : c.era + 1 + (pair' :: pairs').length < u32Bound := ih (List.cons_ne_nil _ _)
      rw [List.length_cons] at hlater ⊢
      rw [List.length_cons]
      omega

section Fold

variable {read : Nat → Option LogEntry} {runFuel through : Nat} {current : Ballot} {paced : Bool}

/-! ### One pair -/

/-- An establishing operation and its nomination fold as one batch. -/
theorem Configuration.apply_pair {c next : Configuration} {pair : FusedPair} (slot : Nat)
    (hc : c.WellFormed) (hpos : 0 < c.total)
    (hscaling : pair.op.isScaling = false) (happly : c.applyInEra pair.op = .ok next)
    (hoffset : pair.offset ≠ 0) (hera : c.era + 1 < u32Bound) :
    c.apply (.batch pair.ops) slot = .ok { next with era := c.era + 1 } := by
  have hshape : batchShape pair.ops = .ok () := by
    unfold FusedPair.ops
    cases hpair : pair.op with
    | void => rw [hpair] at happly; cases happly
    | init order => rw [hpair] at happly; cases happly
    | batch ops => rw [hpair] at happly; cases happly
    | increment | decrement | double | halve | join | leave | nominate => rfl
  have hsucc : c.successorEra = .ok (c.era + 1) := by
    have hmembers : c.order.isEmpty = false := by
      rw [List.isEmpty_eq_false_iff]
      intro hempty
      simp [total, hempty] at hpos
    rw [successorEra, hmembers, Era.next_eq_some.mpr ⟨hera, rfl⟩]
    rfl
  have hall : c.applyAllInEra pair.ops = .ok next := by
    show (do
      let next ← c.applyInEra pair.op
      let carried ← next.applyInEra (.nominate pair.start pair.offset)
      carried.applyAllInEra []) = _
    rw [happly]
    show (do
      let carried ← next.applyInEra (.nominate pair.start pair.offset)
      carried.applyAllInEra []) = _
    rw [applyInEra, if_neg hoffset]
    rfl
  have hmoved : c.massMoved next ≤ 1 := by
    rw [massMoved_eq]
    exact (applyInEra_change hc.nodup happly).1.moved_le_one hscaling
  have hnone : pair.ops.any SystemOperation.isScaling = false := by
    show (pair.op.isScaling || (false || false)) = false
    rw [hscaling]
    rfl
  rw [apply, applyBatch, if_neg (by simp [FusedPair.ops]), hshape, hnone, hsucc, hall]
  simp only [Bool.and_false, Bool.not_false, Bool.true_and]
  show (if decide (1 < c.massMoved next) = true then _ else _) = _
  rw [if_neg (by simpa using hmoved)]
  rfl

theorem Configuration.apply_scaling_pair (c : Configuration) {pair : FusedPair} (slot : Nat)
    (hscaling : pair.op.isScaling = true) :
    ∃ error, c.apply (.batch pair.ops) slot = .error error := by
  have hany : pair.ops.any SystemOperation.isScaling = true := by
    simp [FusedPair.ops, hscaling]
  have hshape : batchShape pair.ops = .ok () := by
    unfold FusedPair.ops
    cases hpair : pair.op with
    | void | init | increment | decrement | join | leave | nominate | batch =>
      rw [hpair] at hscaling
      cases hscaling
    | double | halve => rfl
  refine ⟨.scalingNotSolitary, ?_⟩
  rw [apply, applyBatch, if_neg (by simp [FusedPair.ops]), hshape, hany]
  rfl

theorem runNominations_pair {pair : FusedPair} {c next : Configuration} {view : Ballot} {era : Nat}
    (hop : pair.op.isNominate = false) (happly : c.applyInEra pair.op = .ok next)
    (hstart : pair.start = view.view) (hbound : pair.start + pair.offset < u32Bound) :
    runNominations (some view) pair.ops era =
      some { era := era, view := pair.start + pair.offset } := by
  have hriders : pair.op.riders = [] := by
    cases hpair : pair.op with
    | nominate start offset =>
      rw [hpair] at hop
      cases hop
    | batch ops =>
      rw [hpair] at happly
      cases happly
    | void | init | increment | decrement | double | halve | join | leave => rfl
  unfold runNominations FusedPair.ops
  rw [List.flatMap_cons, hriders]
  simp [SystemOperation.riders, runRider, hstart, hstart ▸ hbound]

/-- A system entry of a run's era goes on with it. -/
theorem runAfter_cons {slot era : Nat} {op : SystemOperation} (hslot : slot + 1 < u64Bound)
    (hread : read (slot + 1) = some { slot := slot + 1, era := era, payload := .system op }) :
    runAfter read era (runFuel + 1) slot = op :: runAfter read era runFuel (slot + 1) := by
  rw [runAfter, Slot.next_eq_some.mpr ⟨hslot, rfl⟩]
  simp only [hread, ne_eq, not_true_eq_false, if_false]

/-- A run ends where the next slot holds no system entry of its era. -/
theorem runAfter_nil {slot era : Nat}
    (hends : ∀ entry, read (slot + 1) = some entry →
      entry.era ≠ era ∨ entry.payload.isSystem = false) :
    runAfter read era runFuel slot = [] := by
  cases runFuel with
  | zero => rfl
  | succ runFuel =>
    rw [runAfter]
    split
    · rfl
    · rename_i follow hfollow
      obtain ⟨-, rfl⟩ := Slot.next_eq_some.mp hfollow
      split
      · rfl
      · rename_i entry hread
        rcases hends entry hread with hera | hpayload
        · rw [if_pos hera]
        · split
          · rfl
          · split
            · rfl
            · rename_i op hsystem
              rw [hsystem] at hpayload
              cases hpayload

/-- **A pair folds as one batch**, and the ballot moves with it. -/
theorem foldRest_pair (current : Ballot) (paced : Bool) {folding : Folding} {view : Ballot}
    {pair : FusedPair} {next : Configuration}
    (hsound : folding.table.Sound folding.covered) (hrunning : folding.running = some view)
    (hstart : pair.start = view.view) (hbound : pair.start + pair.offset < u32Bound)
    (hop : pair.op.isNominate = false) (hscaling : pair.op.isScaling = false)
    (happly : folding.table.current.config.applyInEra pair.op = .ok next)
    (hoffset : pair.offset ≠ 0) (hera : folding.table.current.config.era + 1 < u32Bound)
    {entry : LogEntry} (hread : read (folding.covered + 1) = some entry)
    (hpayload : entry.payload = .system pair.op)
    (hfollow : runAfter read entry.era runFuel (folding.covered + 1) =
      [.nominate pair.start pair.offset])
    (hwithin : folding.covered + 2 ≤ through) :
    ∃ extended : EraTable, extended.Sound (folding.covered + 2) ∧
      extended.current.config =
        { next with era := folding.table.current.config.era + 1 } ∧
      foldRest read runFuel current through paced folding =
        foldRest read runFuel current through paced
          { folding with
            table := extended, covered := folding.covered + 2
            running := some
              { era := folding.table.current.config.era + 1
                view := pair.start + pair.offset } } := by
  obtain ⟨extended, hextended, hconfig, hestablished⟩ := EraTable.extend_of_apply
    (Configuration.apply_pair (folding.covered + 1) hsound.reachable.wellFormed
      hsound.total_pos hscaling happly hoffset hera)
  refine ⟨extended, (hsound.extend (Nat.lt_succ_self _) hextended).later (Nat.le_succ _), hconfig,
    ?_⟩
  have hrun : extendRun folding.table pair.op [.nominate pair.start pair.offset]
      (folding.covered + 1) through = .ok (extended, pair.ops, folding.covered + 2) := by
    have hbatch : folding.table.extend
        (.batch [pair.op, .nominate pair.start pair.offset]) (folding.covered + 1) =
        .ok extended := hextended
    unfold extendRun
    simp only [List.isEmpty_cons, Bool.false_eq_true, if_false, List.length_singleton]
    rw [if_neg (by omega), hbatch]
    rfl
  rw [foldRest_run (by omega) hread hpayload, hfollow, hrun]
  simp only [hrunning, runNominations_pair hop happly hstart hbound, hestablished]
  -- the nomination moves the view, so the era window lets the batch through
  have hspent : windowSpent current (some view)
      (some { era := folding.table.current.config.era + 1, view := pair.start + pair.offset })
      (folding.table.current.config.era + 1) = false := by
    have hmoved : some { era := folding.table.current.config.era + 1
                         view := pair.start + pair.offset } ≠ some view := by
      intro heq
      have hview := congrArg Ballot.view (Option.some.inj heq)
      simp only at hview
      omega
    unfold windowSpent
    rw [beq_eq_false_iff_ne.mpr hmoved, Bool.and_false]
  rw [hspent, Bool.and_false]
  rfl

/-- A scaling operation does not fold in a batch with its nomination; alone it leaves the
nomination behind, which folds with nothing. -/
theorem foldRest_scaling {folding folded : Folding} {pair : FusedPair}
    (hscaling : pair.op.isScaling = true) {entry carried : LogEntry}
    (hread : read (folding.covered + 1) = some entry) (hpayload : entry.payload = .system pair.op)
    (hfollow : runAfter read entry.era runFuel (folding.covered + 1) =
      [.nominate pair.start pair.offset])
    (hcarried : read (folding.covered + 2) = some carried)
    (hrider : carried.payload = .system (.nominate pair.start pair.offset))
    (hends : runAfter read carried.era runFuel (folding.covered + 2) = [])
    (hwithin : folding.covered + 2 ≤ through)
    (h : foldRest read runFuel current through paced folding = .ok folded) :
    folded.stopped = true := by
  obtain ⟨refusal, hrefused⟩ :=
    Configuration.apply_scaling_pair folding.table.current.config (folding.covered + 1) hscaling
  have hbatch : folding.table.extend (.batch [pair.op, .nominate pair.start pair.offset])
      (folding.covered + 1) = .error refusal := by
    show (folding.table.current.config.apply (.batch pair.ops) (folding.covered + 1) >>= _) = _
    rw [hrefused]
    rfl
  rw [foldRest_run (by omega) hread hpayload, hfollow] at h
  unfold extendRun at h
  simp only [List.isEmpty_cons, Bool.false_eq_true, if_false, List.length_singleton] at h
  rw [if_neg (by omega), hbatch] at h
  simp only at h
  cases hsingle : folding.table.extend pair.op (folding.covered + 1) with
  | error error =>
    rw [hsingle] at h
    cases h
  | ok extended =>
    rw [hsingle] at h
    simp only at h
    split at h
    · cases h
      rfl
    · -- the nomination is next, and no era is established by it
      rw [foldRest_run (by show folding.covered + 1 < through; omega) hcarried hrider, hends] at h
      unfold extendRun at h
      have hsolitary : extended.extend (.nominate pair.start pair.offset) (folding.covered + 2) =
          .error .solitaryNomination := rfl
      simp only [List.isEmpty_nil, if_true, hsolitary] at h
      cases h

/-- Whether a run is empty shows at its first slot. -/
theorem runAfter_nil_of {slot era fuel : Nat} (h : runAfter read era (fuel + 1) slot = [])
    (other : Nat) : runAfter read era other slot = [] := by
  cases other with
  | zero => rfl
  | succ other =>
    rw [runAfter] at h ⊢
    cases hfollow : Slot.next slot with
    | none => rfl
    | some follow =>
      cases hread : read follow with
      | none => simp only [hread]
      | some entry =>
        simp only [hfollow, hread] at h ⊢
        split at h
        · rename_i hera
          rw [if_pos hera]
        · rename_i hera
          rw [if_neg hera]
          split at h
          · rfl
          · cases h

/-- The run that begins at a pair is the pair: the next pair has the next stamp, and what follows
the last one would have split the batch. -/
theorem pair_run {folding : Folding} {pair : FusedPair} {pairs : List FusedPair}
    {behind : Configuration} {rest : List LogEntry} {era : Nat}
    (hrest : Laid behind (folding.covered + 3) pairs rest) (hera : behind.era ≠ era)
    (hslot : folding.covered + 2 < u64Bound)
    (hread : read (folding.covered + 1) =
      some { slot := folding.covered + 1, era := era, payload := .system pair.op })
    (hrider : read (folding.covered + 2) =
      some { slot := folding.covered + 2, era := era
             payload := .system (.nominate pair.start pair.offset) })
    (hreads : ∀ entry ∈ rest, read entry.slot = some entry)
    (hwithin : folding.covered + 2 + 2 * pairs.length ≤ through)
    (hbeyond : ∀ slot, folding.covered + 2 + 2 * pairs.length < slot → slot ≤ through →
      ClientAt read slot)
    (hwhole : foldRest read (runFuel + 2) current through paced folding ≠ .error .splitBatch) :
    runAfter read era (runFuel + 2) (folding.covered + 1) =
        [.nominate pair.start pair.offset] ∧
      ∀ fuel, runAfter read era fuel (folding.covered + 2) = [] := by
  have hrun : runAfter read era (runFuel + 2) (folding.covered + 1) =
      .nominate pair.start pair.offset :: runAfter read era (runFuel + 1) (folding.covered + 2) :=
    runAfter_cons hslot hrider
  have hmore : runAfter read era (runFuel + 1) (folding.covered + 2) = [] := by
    cases hrest with
    | cons hop happly hoffset hbound hnext hlater =>
      refine runAfter_nil fun entry hentry => .inl ?_
      rw [hreads _ List.mem_cons_self] at hentry
      cases hentry
      exact hera
    | nil =>
      by_cases hlast : folding.covered + 3 ≤ through
      · refine runAfter_nil fun entry hentry => .inr ?_
        obtain ⟨held, id, payload, hheld, hpayload⟩ :=
          hbeyond (folding.covered + 3) (by rw [List.length_nil]; omega) hlast
        rw [hheld] at hentry
        cases hentry
        rw [hpayload]
        rfl
      · by_contra hmore
        refine hwhole ?_
        rw [foldRest_run (by omega) hread rfl, hrun]
        have hlength := List.length_pos_iff.mpr hmore
        rw [List.length_nil] at hwithin
        unfold extendRun
        simp only [List.isEmpty_cons, Bool.false_eq_true, if_false, List.length_cons]
        rw [if_pos (by
          show through < folding.covered + 1 + ((runAfter read era (runFuel + 1)
            (folding.covered + 2)).length + 1)
          omega)]
  rw [hmore] at hrun
  exact ⟨hrun, runAfter_nil_of hmore⟩

/-- **A slab without scalings folds pair by pair**: the table grows by one era a pair, and the
ballot goes with it. -/
theorem fold_laid {c : Configuration} {slot : Nat} {pairs : List FusedPair}
    {entries : List LogEntry} (hlaid : Laid c slot pairs entries) (folding : Folding)
    {view : Ballot} (hconfig : folding.table.current.config = c)
    (hslot : folding.covered + 1 = slot) (hsound : folding.table.Sound folding.covered)
    (hrunning : folding.running = some view) (hmatching : Matching view.view pairs)
    (hreads : ∀ entry ∈ entries, read entry.slot = some entry)
    (hwithin : folding.covered + 2 * pairs.length ≤ through)
    (hbeyond : ∀ slot, folding.covered + 2 * pairs.length < slot → slot ≤ through →
      ClientAt read slot)
    (hwhole : foldRest read (runFuel + 2) current through paced folding ≠ .error .splitBatch)
    (hscaling : ∀ pair ∈ pairs, pair.op.isScaling = false) :
    ∃ (extended : EraTable) (last : Ballot),
      extended.Sound (folding.covered + 2 * pairs.length) ∧
      extended.current.era = c.era + pairs.length ∧
      ((pairs = [] ∧ last = view) ∨ last.era = c.era + pairs.length) ∧
      view.view + pairs.length ≤ last.view ∧
      foldRest read (runFuel + 2) current through paced folding =
        foldRest read (runFuel + 2) current through paced
          { folding with
            table := extended, covered := folding.covered + 2 * pairs.length
            running := some last } := by
  induction hlaid generalizing folding view with
  | nil =>
    refine ⟨folding.table, view, hsound, ?_, .inl ⟨rfl, rfl⟩, Nat.le_refl _, ?_⟩
    · rw [← hsound.era, hconfig]
      rfl
    · rw [← hrunning]
      rfl
  | @cons c next slot pair pairs rest hop happly hoffset hera hnext hrest ih =>
    subst hconfig
    subst hslot
    obtain ⟨hstart, hbound, hlater⟩ := hmatching
    rw [List.length_cons] at hwithin hbeyond
    have hread := hreads _ List.mem_cons_self
    have hrider := hreads _ (List.mem_cons_of_mem _ List.mem_cons_self)
    have hreads' : ∀ entry ∈ rest, read entry.slot = some entry := fun entry hmem =>
      hreads entry (List.mem_cons_of_mem _ (List.mem_cons_of_mem _ hmem))
    obtain ⟨hfollow, -⟩ := pair_run hrest (by
        show folding.table.current.config.era + 1 ≠ folding.table.current.config.era
        omega) hnext hread hrider hreads' (by omega)
      (fun slot hlow hhigh => hbeyond slot (by omega) hhigh) hwhole
    obtain ⟨extended, hextended, hbehind, hstep⟩ := foldRest_pair current paced hsound hrunning
      hstart hbound hop (hscaling pair List.mem_cons_self) happly hoffset hera hread rfl hfollow
      (show folding.covered + 2 ≤ through by omega)
    rw [hstep] at hwhole ⊢
    obtain ⟨grown, last, hgrown, hgrownEra, hlastEra, hlastView, hfold⟩ := ih _
      hbehind rfl hextended
      (show some ({ era := folding.table.current.config.era + 1
                    view := pair.start + pair.offset } : Ballot) = some _ from rfl) hlater hreads'
      (by show folding.covered + 2 + 2 * pairs.length ≤ through; omega)
      (fun slot hlow hhigh => hbeyond slot (by
        have : folding.covered + 2 + 2 * pairs.length < slot := hlow
        omega) hhigh) hwhole
      fun other hmem => hscaling other (List.mem_cons_of_mem _ hmem)
    have hcovered : folding.covered + 2 * (pair :: pairs).length =
        folding.covered + 2 + 2 * pairs.length := by
      rw [List.length_cons]
      omega
    have hbehindEra : folding.table.current.config.era + 1 + pairs.length =
        folding.table.current.config.era + (pairs.length + 1) := by omega
    refine ⟨grown, last, by rw [hcovered]; exact hgrown, hgrownEra.trans hbehindEra, .inr ?_, ?_,
      ?_⟩
    · rcases hlastEra with ⟨rfl, rfl⟩ | hlastEra
      · rfl
      · exact hlastEra.trans hbehindEra
    · rw [List.length_cons]
      have : pair.start + pair.offset + pairs.length ≤ last.view := hlastView
      omega
    · rw [hfold, hcovered]

/-- **A slab with a scaling never folds**: the fold breaks off or stops. -/
theorem fold_laid_scaling {c : Configuration} {slot : Nat} {pairs : List FusedPair}
    {entries : List LogEntry} (hlaid : Laid c slot pairs entries) (folding : Folding)
    {folded : Folding} {view : Ballot} (hconfig : folding.table.current.config = c)
    (hslot : folding.covered + 1 = slot) (hsound : folding.table.Sound folding.covered)
    (hrunning : folding.running = some view) (hmatching : Matching view.view pairs)
    (hreads : ∀ entry ∈ entries, read entry.slot = some entry)
    (hwithin : folding.covered + 2 * pairs.length ≤ through)
    (hbeyond : ∀ slot, folding.covered + 2 * pairs.length < slot → slot ≤ through →
      ClientAt read slot)
    (hscaling : ∃ pair ∈ pairs, pair.op.isScaling = true)
    (h : foldRest read (runFuel + 2) current through paced folding = .ok folded) :
    folded.stopped = true := by
  induction hlaid generalizing folding view with
  | nil =>
    obtain ⟨pair, hmem, -⟩ := hscaling
    cases hmem
  | @cons c next slot pair pairs rest hop happly hoffset hera hnext hrest ih =>
    subst hconfig
    subst hslot
    obtain ⟨hstart, hbound, hlater⟩ := hmatching
    rw [List.length_cons] at hwithin hbeyond
    have hread := hreads _ List.mem_cons_self
    have hrider := hreads _ (List.mem_cons_of_mem _ List.mem_cons_self)
    have hreads' : ∀ entry ∈ rest, read entry.slot = some entry := fun entry hmem =>
      hreads entry (List.mem_cons_of_mem _ (List.mem_cons_of_mem _ hmem))
    obtain ⟨hfollow, hends⟩ := pair_run hrest (by
        show folding.table.current.config.era + 1 ≠ folding.table.current.config.era
        omega) hnext hread hrider hreads' (by omega)
      (fun slot hlow hhigh => hbeyond slot (by omega) hhigh) (by rw [h]; exact nofun)
    have hpair : folding.covered + 2 ≤ through := by omega
    by_cases hown : pair.op.isScaling = true
    · exact foldRest_scaling hown hread rfl hfollow hrider rfl (hends _) hpair h
    · obtain ⟨extended, hextended, hbehind, hstep⟩ := foldRest_pair current paced hsound hrunning
        hstart hbound hop (by simpa using hown) happly hoffset hera hread rfl hfollow hpair
      rw [hstep] at h
      refine ih _ hbehind rfl hextended
        (show some ({ era := folding.table.current.config.era + 1
                      view := pair.start + pair.offset } : Ballot) = some _ from rfl) hlater
        hreads' (by show folding.covered + 2 + 2 * pairs.length ≤ through; omega)
        (fun slot hlow hhigh => hbeyond slot (by
          have : folding.covered + 2 + 2 * pairs.length < slot := hlow
          omega) hhigh) ?_ h
      obtain ⟨other, hmem, hother⟩ := hscaling
      rcases List.mem_cons.mp hmem with rfl | hmem
      · exact absurd hother hown
      · exact ⟨other, hmem, hother⟩

end Fold

/-! ### What a replica accepts as a slab -/

theorem Configuration.applyInEra_nominate {c next : Configuration} {start offset : Nat}
    (h : c.applyInEra (.nominate start offset) = .ok next) : offset ≠ 0 ∧ next = c := by
  rw [applyInEra] at h
  split at h
  · cases h
  · rename_i hoffset
    cases h
    exact ⟨hoffset, rfl⟩

theorem slabEntries_cons {slot era : Nat} {op : SystemOperation} {ops : List SystemOperation}
    {eras : List Nat} {entries : List LogEntry}
    (h : Replica.slabEntries slot (op :: ops) (era :: eras) = .ok entries) :
    slot < u64Bound ∧ ∃ rest, Replica.slabEntries (slot + 1) ops eras = .ok rest ∧
      entries = { slot := slot, era := era, payload := .system op } :: rest := by
  rw [Replica.slabEntries] at h
  split at h
  · rename_i hslot
    obtain ⟨rest, hrest, h⟩ := bind_eq_ok.mp h
    exact ⟨hslot, rest, hrest, (pure_eq_ok.mp h).symm⟩
  · cases h

/-- The stamps the fused fold assigns lay the pairs out. -/
theorem laid_of_go {pairs : List FusedPair} (hops : ∀ pair ∈ pairs, pair.op.isNominate = false)
    {stamped eras : List Nat} {c last : Configuration} (hc : c.WellFormed)
    (h : Configuration.foldSlots.go stamped c (slabOps pairs) = .ok (eras, last)) :
    ∃ stamps, eras = stamped ++ stamps ∧ ∀ slot entries,
      Replica.slabEntries slot (slabOps pairs) stamps = .ok entries → Laid c slot pairs entries := by
  induction pairs generalizing stamped c with
  | nil =>
    cases h
    refine ⟨[], (List.append_nil _).symm, fun slot entries hentries => ?_⟩
    cases hentries
    exact .nil
  | cons pair pairs ih =>
    have hop := hops pair List.mem_cons_self
    change Configuration.foldSlots.go stamped c
      (pair.op :: .nominate pair.start pair.offset :: slabOps pairs) = _ at h
    unfold Configuration.foldSlots.go at h
    simp only [hop, Bool.false_eq_true, if_false] at h
    obtain ⟨next, hnext, h⟩ := bind_eq_ok.mp h
    obtain ⟨hchange, hera⟩ := Configuration.applyInEra_change hc.nodup hnext
    split at h
    · cases h
    · rename_i era hsucc
      obtain ⟨hbound, rfl⟩ := Era.next_eq_some.mp hsucc
      rw [hera] at h hbound
      unfold Configuration.foldSlots.go at h
      simp only [SystemOperation.isNominate, if_true] at h
      obtain ⟨carried, hcarried, h⟩ := bind_eq_ok.mp h
      obtain ⟨hoffset, rfl⟩ := Configuration.applyInEra_nominate hcarried
      have hnextWell := hchange.wellFormed hc
      obtain ⟨stamps, rfl, hlaid⟩ := ih (c := { next with era := c.era + 1 })
        (fun other hmem => hops other (List.mem_cons_of_mem _ hmem))
        ⟨hnextWell.nodup, hnextWell.capped⟩ h
      refine ⟨c.era :: c.era :: stamps, by simp, fun slot entries hentries => ?_⟩
      obtain ⟨-, carried, hcarried, rfl⟩ := slabEntries_cons hentries
      obtain ⟨hslot, rest, hrest, rfl⟩ := slabEntries_cons hcarried
      exact .cons hop hnext hoffset hbound hslot (hlaid _ _ hrest)

namespace Replica

variable {J : Type} [Journal J]

/-- **The operations a replica accepted as a slab**, and the entries it journals for them: as the
primary that built the envelope, or as a receiver of it. -/
inductive AcceptsSlab (r : Replica J) (ops : List SystemOperation) (entries : List LogEntry) : Prop
  | built {plan : PlannedTransition} (hplan : r.planFuseBatch ops = .ok plan)
      (hjournal : plan.journal = .accept entries)
  | received {sender time : Nat} {message : Message} {kind : InputKind} {plan : PlannedTransition}
      (hplan : r.planFuse sender message ops time kind = .ok plan)
      (hjournal : plan.journal = .accept entries)

theorem checkSuffix_ne_accept {r : Replica J} {suffix entries : List LogEntry}
    {accepted committed discharged : Nat} :
    r.checkSuffix suffix accepted committed discharged ≠ .install (.accept entries) := by
  intro h
  unfold checkSuffix at h
  dsimp only at h
  split at h
  · split at h
    · cases h
    · cases h
  · split at h
    · cases h
    · split at h
      · cases h
      · cases h
      · split at h
        · split at h
          · cases h
          · cases h
        · cases h
      · split at h
        · split at h
          · cases h
          · cases h
        · cases h

theorem planWinView_journal {r : Replica J} {target : Ballot} {selected : Evidence}
    {evidence : OrdMap Nat Evidence} {effects : List Effect} {time : Nat} {kind : InputKind}
    {plan : PlannedTransition} {entries : List LogEntry}
    (h : r.planWinView target selected evidence effects time kind = .ok (.installed plan)) :
    plan.journal ≠ .accept entries := by
  simp only [planWinView] at h
  split at h
  · cases h
  · split at h
    · cases h
    · obtain ⟨breach, hbreach, h⟩ := bind_eq_ok.mp h
      cases pure_eq_ok.mp h
      obtain ⟨candidate, -, rfl⟩ := breachPlan_ok hbreach
      exact fun heq => by cases heq
    · rename_i mutation hcheck
      obtain ⟨applied, -, h⟩ := bind_eq_ok.mp h
      split at h
      · cases h
      · obtain ⟨drop, hdrop, h⟩ := bind_eq_ok.mp h
        cases pure_eq_ok.mp h
        obtain ⟨candidate, -, rfl⟩ := dropPlan_ok hdrop
        exact fun heq => by cases heq
      · obtain ⟨breach, hbreach, h⟩ := bind_eq_ok.mp h
        cases pure_eq_ok.mp h
        obtain ⟨candidate, -, rfl⟩ := breachPlan_ok hbreach
        exact fun heq => by cases heq
      · obtain ⟨candidate, -, h⟩ := bind_eq_ok.mp h
        obtain ⟨applies, -, h⟩ := bind_eq_ok.mp h
        obtain ⟨announcements, -, h⟩ := bind_eq_ok.mp h
        cases pure_eq_ok.mp h
        rintro (rfl : mutation = _)
        exact checkSuffix_ne_accept hcheck

/-- A fence appends nothing, whether it completes at once or not. -/
theorem planHigherViewSignal_journal {r : Replica J} {sender time : Nat} {view : Ballot}
    {kind : InputKind} {plan : PlannedTransition} {entries : List LogEntry}
    (h : r.planHigherViewSignal sender view time kind = .ok plan) :
    plan.journal ≠ .accept entries := by
  obtain ⟨fence, hfence, h⟩ := bind_eq_ok.mp h
  have hsame : plan.journal = fence.journal := by
    split at h
    · cases pure_eq_ok.mp h
      rfl
    · cases pure_eq_ok.mp h
      rfl
  rw [hsame]
  obtain ⟨candidate, -, hfence⟩ := bind_eq_ok.mp hfence
  simp only [continueViewChange] at hfence
  split at hfence
  · obtain ⟨candidate, -, rfl⟩ := dropPlan_ok hfence
    exact fun heq => by cases heq
  · obtain ⟨⟨attempt, effects⟩, -, hfence⟩ := bind_eq_ok.mp hfence
    split at hfence
    · split at hfence
      · cases pure_eq_ok.mp hfence
        exact fun heq => by cases heq
      · obtain ⟨outcome, hwin, hfence⟩ := bind_eq_ok.mp hfence
        split at hfence
        · cases pure_eq_ok.mp hfence
          exact planWinView_journal hwin
        · split at hfence
          · cases pure_eq_ok.mp hfence
            exact fun heq => by cases heq
          · cases pure_eq_ok.mp hfence
            exact fun heq => by cases heq
    · cases pure_eq_ok.mp hfence
      exact fun heq => by cases heq

/-- **Builder and receiver fold a slab alike**: over the newest committed configuration, at the
slots behind the accepted frontier. -/
theorem AcceptsSlab.folds {r : Replica J} {ops : List SystemOperation} {entries : List LogEntry}
    (h : r.AcceptsSlab ops entries) :
    ∃ eras last, r.progress.config.current.config.foldSlots ops = .ok (eras, last) ∧
      slabEntries (r.progress.accepted + 1) ops eras = .ok entries := by
  cases h with
  | built hplan hjournal =>
    obtain ⟨record, hrecord, hplan⟩ := bind_eq_ok.mp hplan
    obtain ⟨firstSlot, hslot, hplan⟩ := bind_eq_ok.mp hplan
    obtain ⟨table, hgates, hplan⟩ := bind_eq_ok.mp hplan
    obtain ⟨eras, hstamps, hplan⟩ := bind_eq_ok.mp hplan
    obtain ⟨built, hbuilt, hplan⟩ := bind_eq_ok.mp hplan
    split at hplan
    · cases hplan
    · obtain ⟨candidate, -, hplan⟩ := bind_eq_ok.mp hplan
      cases pure_eq_ok.mp hplan
      cases hjournal
      have hcurrent : record.config = r.progress.config.current.config := by
        unfold proposerRecord currentRecord at hrecord
        rw [← reconfigureGates_era hgates, EraTable.record_current] at hrecord
        simp only at hrecord
        split at hrecord
        · cases hrecord
          rfl
        · cases hrecord
      unfold slabStamps at hstamps
      rw [hcurrent] at hstamps
      split at hstamps
      · rename_i stamps last hfold
        cases hstamps
        exact ⟨eras, last, hfold, nextFreeSlot_ok hslot ▸ hbuilt⟩
      · cases hstamps
      · cases hstamps
  | received hplan hjournal =>
    cases planFuse_cases hplan with
    | dropped _ hdrop =>
      obtain ⟨candidate, -, rfl⟩ := dropPlan_ok hdrop
      cases hjournal
    | signalled _ hsignal => exact absurd hjournal (planHigherViewSignal_journal hsignal)
    | next _ _ eras last received _ candidate hfold hslab _ _ hplan =>
      subst hplan
      cases hjournal
      exact ⟨eras, last, hfold, hslab⟩

/-! ### The commit of a slab -/

/-- **The slots of a slab commit in one advance**, to a frontier at its end or past client
operations behind it. Below the slab only client operations are uncommitted: a builder's gate sees
to that. -/
structure AdvancesOver (r : Replica J) (overlay : List LogEntry) (first : Nat)
    (entries : List LogEntry) (through accepted applied : Nat) : Prop where
  above : r.progress.committed < first
  below : ∀ slot, r.progress.committed < slot → slot < first →
    ClientAt (merged r.journal overlay) slot
  held : ∀ entry ∈ entries, merged r.journal overlay entry.slot = some entry
  reaches : first + entries.length ≤ through + 1
  beyond : ∀ slot, first + entries.length ≤ slot → slot ≤ through →
    ClientAt (merged r.journal overlay) slot
  /-- The cut does not fall inside a run, and the era window does not hold the fold back. -/
  whole : r.foldCommitted overlay r.progress.committed through true ≠ .error .splitBatch
  unstopped : ∀ folded, r.foldCommitted overlay r.progress.committed through true = .ok folded →
    folded.stopped = false
  accepted : through ≤ accepted ∧ r.progress.accepted ≤ accepted
  applied : r.progress.applied ≤ applied ∧ applied ≤ through

/-- **The perimeter admits the commit**: the range folds to its end, the candidate passes its
check and the transition rules. -/
def Admits (r : Replica J) (overlay : List LogEntry) (through accepted applied : Nat)
    (kind : InputKind) : Prop :=
  ∃ folded candidate,
    r.foldCommitted overlay r.progress.committed through true = .ok folded ∧
      folded.covered = through ∧
      r.candidateWith .normal accepted folded.covered applied folded.config folded.bump =
        .ok candidate ∧
      legal r.progress.toProgressData candidate.toProgressData kind = none

/-- What the perimeter says of the commit, computed. -/
def admits (r : Replica J) (overlay : List LogEntry) (through accepted applied : Nat)
    (kind : InputKind) : Bool :=
  match r.foldCommitted overlay r.progress.committed through true with
  | .error _ => false
  | .ok folded =>
    match r.candidateWith .normal accepted folded.covered applied folded.config folded.bump with
    | .error _ => false
    | .ok candidate =>
      folded.covered == through &&
        (legal r.progress.toProgressData candidate.toProgressData kind).isNone

theorem admits_iff {r : Replica J} {overlay : List LogEntry} {through accepted applied : Nat}
    {kind : InputKind} :
    r.admits overlay through accepted applied kind = true ↔
      r.Admits overlay through accepted applied kind := by
  unfold admits Admits
  constructor
  · intro h
    split at h
    · cases h
    · rename_i folded hfolded
      split at h
      · cases h
      · rename_i candidate hcandidate
        rw [Bool.and_eq_true, beq_iff_eq, Option.isNone_iff_eq_none] at h
        exact ⟨folded, candidate, hfolded, h.1, hcandidate, h.2⟩
  · rintro ⟨folded, candidate, hfolded, hcovered, hcandidate, hlegal⟩
    subst hcovered
    simp only [hfolded, hcandidate, hlegal, beq_self_eq_true, Option.isNone_none, Bool.and_self]

/-- A commit folds over the slab from the last slot below it. -/
theorem AdvancesOver.fold_eq {r : Replica J} {overlay entries : List LogEntry}
    {first through accepted applied : Nat}
    (h : r.AdvancesOver overlay first entries through accepted applied) :
    r.foldCommitted overlay r.progress.committed through true =
      (foldRest (merged r.journal overlay) (r.runFuel overlay) r.progress.current through true
        { r.folding r.progress.committed with covered := first - 1 }).map fun end_ =>
          { config := end_.table, covered := end_.covered, stopped := end_.stopped
            bump := end_.running.filter fun view => view != r.progress.current } := by
  have habove := h.above
  have hreaches := h.reaches
  rw [foldCommitted_eq]
  congr 1
  show foldRest _ _ _ _ _ (r.folding r.progress.committed) = _
  exact foldRest_operations (first - 1) (by show r.progress.committed ≤ first - 1; omega)
    (by omega) fun slot hlow hhigh => h.below slot hlow (by omega)

/-- The fold of an advance, up to the client operations behind the slab. -/
theorem AdvancesOver.covers {r : Replica J} {overlay entries : List LogEntry}
    {first through accepted applied : Nat}
    (h : r.AdvancesOver overlay first entries through accepted applied) {folding : Folding}
    (hfolding : folding.covered = first - 1 + entries.length) :
    foldRest (merged r.journal overlay) (r.runFuel overlay) r.progress.current through true
        folding = .ok { folding with covered := through } := by
  have habove := h.above
  have hreaches := h.reaches
  rw [foldRest_operations through (by omega) (Nat.le_refl _)
    fun slot hlow hhigh => h.beyond slot (by omega) hhigh]
  exact foldSlotsThrough_done (Nat.le_refl _)

theorem Laid.runFuel [LawfulJournal J] {r : Replica J} {overlay entries : List LogEntry}
    {c : Configuration} {first : Nat} {pairs : List FusedPair}
    (hlaid : Laid c first pairs entries) (hsome : pairs ≠ []) (hfirst : first ≠ 0)
    (hheld : ∀ entry ∈ entries, merged r.journal overlay entry.slot = some entry) :
    ∃ fuel, r.runFuel overlay = fuel + 2 := by
  cases hlaid with
  | nil => exact absurd rfl hsome
  | @cons _ next slot pair pairs rest hop happly hoffset hera hslot hrest =>
    have hfound := hheld _ List.mem_cons_self
    have hsize : 1 ≤ overlay.length + (Journal.accepted r.journal).getD 0 := by
      unfold merged at hfound
      split at hfound
      · rename_i entry hentry
        have := List.length_pos_of_mem (List.mem_of_find?_eq_some hentry)
        omega
      · obtain ⟨frontier, haccepted, hle⟩ := LawfulJournal.get_le hfound
        have hle' : first ≤ frontier := hle
        rw [haccepted, Option.getD_some]
        omega
    obtain ⟨fuel, hfuel⟩ := Nat.exists_eq_add_of_le' hsize
    exact ⟨fuel, by unfold Replica.runFuel; omega⟩

/-- **The fold of a slab without scalings** reaches the end of the advance, one era and one
nomination a pair. -/
theorem AdvancesOver.folds [LawfulJournal J] {r : Replica J} (hr : r.Tabled)
    (hserving : r.progress.status = .normal) {overlay entries : List LogEntry}
    {first through accepted applied : Nat} {pairs : List FusedPair}
    (h : r.AdvancesOver overlay first entries through accepted applied)
    (hlaid : Laid r.progress.config.current.config first pairs entries) (hsome : pairs ≠ [])
    (hmatching : Matching r.progress.current.view pairs)
    (hscaling : ∀ pair ∈ pairs, pair.op.isScaling = false) :
    ∃ folded last, r.foldCommitted overlay r.progress.committed through true = .ok folded ∧
      folded.covered = through ∧ folded.config.Sound through ∧
      folded.config.current.era = r.progress.config.current.era + pairs.length ∧
      folded.bump = some last ∧
      last.era = r.progress.config.current.era + pairs.length ∧
      r.progress.current.view < last.view := by
  have habove := h.above
  have hreaches := h.reaches
  have hlength := hlaid.length
  have hcount := List.length_pos_iff.mpr hsome
  obtain ⟨fuel, hfuel⟩ := Laid.runFuel (r := r) hlaid hsome (by omega) h.held
  have hcommit := h.fold_eq
  rw [hfuel] at hcommit
  have hwhole : foldRest (merged r.journal overlay) (fuel + 2) r.progress.current through true
      { r.folding r.progress.committed with covered := first - 1 } ≠ .error .splitBatch := by
    intro hsplit
    rw [hsplit] at hcommit
    exact h.whole hcommit
  obtain ⟨extended, last, hsound, hera, hlastEra, hlastView, hfold⟩ := fold_laid hlaid
    { r.folding r.progress.committed with covered := first - 1 } rfl
    (show first - 1 + 1 = first by omega)
    (show r.progress.config.Sound (first - 1) from hr.published.later (by omega))
    (show (if r.progress.status = .normal then some r.progress.current else none) = some _ from
      if_pos hserving)
    hmatching h.held (show first - 1 + 2 * pairs.length ≤ through by omega)
    (fun slot hlow hhigh => h.beyond slot (by
      have : first - 1 + 2 * pairs.length < slot := hlow
      omega) hhigh) hwhole hscaling
  have hconfigEra : r.progress.config.current.config.era = r.progress.config.current.era :=
    hr.published.era
  have hlastEra' : last.era = r.progress.config.current.era + pairs.length := by
    rcases hlastEra with ⟨hempty, -⟩ | hlastEra
    · exact absurd hempty hsome
    · rw [hlastEra, hconfigEra]
  have hview : r.progress.current.view < last.view := by omega
  have hcovers := h.covers (show
    ({ table := extended, covered := first - 1 + 2 * pairs.length, running := some last
       stopped := false } : Folding).covered = _ by
    show first - 1 + 2 * pairs.length = first - 1 + entries.length
    rw [hlength])
  rw [hfuel] at hcovers
  rw [hfold] at hcommit
  refine ⟨_, last, hcommit.trans (congrArg _ hcovers), rfl, hsound.later ?_, ?_, ?_, hlastEra',
    hview⟩
  · show first - 1 + 2 * pairs.length ≤ through
    omega
  · rw [← hconfigEra]
    exact hera
  · have hmoved : (last != r.progress.current) = true := by
      rw [bne_iff_ne]
      rintro rfl
      omega
    simp [Option.filter, hmoved]

/-- A slab with a scaling does not fold in one advance. -/
theorem AdvancesOver.not_folds [LawfulJournal J] {r : Replica J} (hr : r.Tabled)
    (hserving : r.progress.status = .normal) {overlay entries : List LogEntry}
    {first through accepted applied : Nat} {pairs : List FusedPair}
    (h : r.AdvancesOver overlay first entries through accepted applied)
    (hlaid : Laid r.progress.config.current.config first pairs entries)
    (hmatching : Matching r.progress.current.view pairs)
    (hscaling : ∃ pair ∈ pairs, pair.op.isScaling = true) {folded : FoldedCommit}
    (hfolded : r.foldCommitted overlay r.progress.committed through true = .ok folded) : False := by
  have habove := h.above
  have hreaches := h.reaches
  have hlength := hlaid.length
  have hsome : pairs ≠ [] := by
    rintro rfl
    obtain ⟨pair, hmem, -⟩ := hscaling
    cases hmem
  obtain ⟨fuel, hfuel⟩ := Laid.runFuel (r := r) hlaid hsome (by omega) h.held
  have hcommit := h.fold_eq
  rw [hfuel, hfolded] at hcommit
  obtain ⟨end_, hend, hfolded'⟩ : ∃ end_, foldRest (merged r.journal overlay) (fuel + 2)
      r.progress.current through true
      { r.folding r.progress.committed with covered := first - 1 } = .ok end_ ∧
        folded.stopped = end_.stopped := by
    cases hrest : foldRest (merged r.journal overlay) (fuel + 2) r.progress.current through true
        { r.folding r.progress.committed with covered := first - 1 } with
    | error error =>
      rw [hrest] at hcommit
      cases hcommit
    | ok end_ =>
      rw [hrest] at hcommit
      cases hcommit
      exact ⟨end_, rfl, rfl⟩
  have hstopped := fold_laid_scaling hlaid
    { r.folding r.progress.committed with covered := first - 1 } rfl
    (show first - 1 + 1 = first by omega)
    (show r.progress.config.Sound (first - 1) from hr.published.later (by omega))
    (show (if r.progress.status = .normal then some r.progress.current else none) = some _ from
      if_pos hserving)
    hmatching h.held (show first - 1 + 2 * pairs.length ≤ through by omega)
    (fun slot hlow hhigh => h.beyond slot (by
      have : first - 1 + 2 * pairs.length < slot := hlow
      omega) hhigh) hscaling hend
  rw [← hfolded', h.unstopped folded hfolded] at hstopped
  cases hstopped

/-! ### The perimeter -/

omit [Journal J] in
/-- The record a serving replica puts up behind a nomination. -/
theorem candidateWith_nominated {r : Replica J} {accepted covered applied : Nat}
    {config : EraTable} {last : Ballot} (hsound : config.Sound covered)
    (hera : last.era = config.current.era) (hcommitted : covered ≤ accepted)
    (happlied : r.progress.applied ≤ applied ∧ applied ≤ covered)
    (hrevision : r.progress.revision + 1 < u64Bound) :
    ∃ candidate : Progress,
      r.candidateWith .normal accepted covered applied config (some last) = .ok candidate ∧
        candidate.toProgressData =
          r.recordWith .normal accepted covered applied config (some last) := by
  have hcheck : (r.recordWith .normal accepted covered applied config (some last)).check =
      .ok () := by
    refine ProgressData.check_eq_ok.mpr ⟨?_, rfl, ?_⟩
    · exact ⟨r.progress.checkpoint_le_applied.trans happlied.1, happlied.2, hcommitted⟩
    · have hslot : config.eraOfSlot accepted = some config.current.era := by
        unfold EraTable.eraOfSlot
        rw [if_pos (hsound.established.trans hcommitted)]
      refine ProgressData.eraDiscipline_of_eraOfSlot hslot (.inl ?_)
      exact hera.symm
  obtain ⟨candidate, hcandidate, hdata⟩ := Progress.reconstitute_of_check hcheck
  refine ⟨candidate, ?_, hdata⟩
  unfold candidateWith nextRecord
  rw [if_pos hrevision]
  exact asCandidate_eq_ok.mpr hcandidate

omit [Journal J] in
/-- **What the perimeter asks of a nominated record**: the eras from the ballot before to the
ballot behind are on record. -/
theorem legal_nominated_iff {r : Replica J} {accepted covered applied : Nat} {config : EraTable}
    {last : Ballot} {kind : InputKind} {candidate : Progress}
    (hdata : candidate.toProgressData =
      r.recordWith .normal accepted covered applied config (some last))
    (hsound : config.Sound covered) (hera : last.era = config.current.era)
    (hahead : r.progress.current.era < last.era) (hview : r.progress.current.view < last.view)
    (hbound : last.era < u32Bound)
    (hjump : last.era - r.progress.current.era ≤ covered - r.progress.committed)
    (hfault : r.progress.fault = none) (hrevision : r.progress.revision + 1 < u64Bound)
    (haccepted : r.progress.accepted ≤ accepted)
    (happlied : r.progress.applied ≤ applied) (hkind : rule7HeaderSlotViolated kind = false) :
    legal r.progress.toProgressData candidate.toProgressData kind = none ↔
      last.era ≤ r.progress.current.era + 2 := by
  have hchain := candidate.frontierChain
  have hdiscipline := candidate.eraDiscipline
  rw [hdata] at hchain hdiscipline ⊢
  have hrule2 : rule2ViewSuccessionViolated r.progress.toProgressData
      (r.recordWith .normal accepted covered applied config (some last)) = false ↔
        last.era ≤ r.progress.current.era + 2 := by
    have hne : last ≠ r.progress.current := by
      rintro rfl
      exact absurd hview (Nat.lt_irrefl _)
    have hwalk : isGroundedNominationWalk r.progress.toProgressData
        (r.recordWith .normal accepted covered applied config (some last)) =
          erasGrounded config covered r.progress.current.era
            (last.era - r.progress.current.era) := by
      unfold isGroundedNominationWalk
      rw [if_neg, if_neg, if_neg]
      · rfl
      · exact Nat.not_lt.mpr hjump
      · exact not_or.mpr ⟨Nat.not_le.mpr hahead, Nat.not_le.mpr hview⟩
      · exact fun hor => hor.elim (fun h => h rfl) fun h => h rfl
    have hrule : rule2ViewSuccessionViolated r.progress.toProgressData
        (r.recordWith .normal accepted covered applied config (some last)) =
          if last = r.progress.current then false
          else if r.progress.current.isLegalSuccessor last = true then false
          else !erasGrounded config covered r.progress.current.era
            (last.era - r.progress.current.era) := by
      rw [← hwalk]
      rfl
    rw [hrule, if_neg hne]
    constructor
    · intro hlegal
      by_contra hfar
      have hsuccessor : r.progress.current.isLegalSuccessor last = false := by
        unfold Ballot.isLegalSuccessor
        rw [Bool.and_eq_false_iff]
        right
        cases hnext : Era.next r.progress.current.era with
        | none => simpa using (show last.era ≠ r.progress.current.era by omega)
        | some next =>
          obtain ⟨-, rfl⟩ := Era.next_eq_some.mp hnext
          simp only [Bool.or_eq_false_iff, beq_eq_false_iff_ne]
          omega
      rw [hsuccessor, hsound.not_grounded (by omega) (by omega)] at hlegal
      cases hlegal
    · intro hnear
      rw [hsound.grounded (by omega) (by omega) (by omega)]
      split
      · rfl
      · rfl
  rw [legal_eq_none_iff, hrule2]
  constructor
  · rintro ⟨-, -, hnear, -⟩
    exact hnear
  · intro hnear
    refine ⟨hfault, ?_, hnear, ?_, ?_, ?_, hkind⟩
    · unfold rule1FrontiersViolated
      rw [if_neg (not_not.mpr hchain), if_neg]
      · rw [Bool.and_eq_false_iff, decide_eq_false_iff_not]
        exact .inl (Nat.not_lt.mpr haccepted)
      · show ¬(covered < r.progress.committed ∨ applied < r.progress.applied ∨
          r.progress.checkpoint < r.progress.checkpoint)
        omega
    · unfold rule3RetainedViolated
      split
      · rfl
      · rw [if_pos ⟨rfl, rfl⟩]
    · unfold rule4RevisionViolated
      simp [recordWith, hrevision]
    · unfold rule6EraSlotViolated
      simpa using hdiscipline

/-- **When the perimeter admits a fused advance.** A slab of `k` pairs, accepted over the table's
configuration and committed in one advance, passes exactly when it rescales no weights and its
last era is at most two past the served one. The table keeps two records, so a longer walk misses
the record of its first era. -/
theorem fusedAdvance_admitted_iff [LawfulJournal J] {r₀ r : Replica J} (hr : r.Reached)
    {pairs : List FusedPair} (hsome : pairs ≠ [])
    (hops : ∀ pair ∈ pairs, pair.op.isNominate = false) {entries : List LogEntry}
    (haccepts : r₀.AcceptsSlab (slabOps pairs) entries)
    (hconfig : r.progress.config.current.config = r₀.progress.config.current.config)
    (hmatching : Matching r.progress.current.view pairs)
    (hserving : r.progress.status = .normal) (hfault : r.progress.fault = none)
    (hrevision : r.progress.revision + 1 < u64Bound) {overlay : List LogEntry}
    {through accepted applied : Nat}
    (hadvance : r.AdvancesOver overlay (r₀.progress.accepted + 1) entries through accepted applied)
    {kind : InputKind} (hkind : rule7HeaderSlotViolated kind = false) :
    r.Admits overlay through accepted applied kind ↔
      (∀ pair ∈ pairs, pair.op.isScaling = false) ∧
        r.progress.config.current.era + pairs.length ≤ r.progress.current.era + 2 := by
  have htabled := hr.tabled
  obtain ⟨eras, last, hfold, hentries⟩ := haccepts.folds
  rw [← hconfig] at hfold
  obtain ⟨stamps, rfl, hlays⟩ := laid_of_go hops htabled.published.reachable.wellFormed hfold
  have hlaid := hlays _ _ hentries
  have hbound := hlaid.era_bound hsome
  rw [htabled.published.era] at hbound
  have hcount := List.length_pos_iff.mpr hsome
  have hwindow := era_window htabled.published
  have hreaches := hadvance.reaches
  have habove := hadvance.above
  have hlength := hlaid.length
  -- what the rules ask of the candidate of a slab that folds
  have hlegal_iff : ∀ {config : EraTable} {last : Ballot} {candidate : Progress},
      config.Sound through →
      config.current.era = r.progress.config.current.era + pairs.length →
      last.era = r.progress.config.current.era + pairs.length →
      r.progress.current.view < last.view →
      candidate.toProgressData =
        r.recordWith .normal accepted through applied config (some last) →
      (legal r.progress.toProgressData candidate.toProgressData kind = none ↔
        r.progress.config.current.era + pairs.length ≤ r.progress.current.era + 2) := by
    intro config last candidate hsound hera hlastEra hview hdata
    rw [legal_nominated_iff hdata hsound (hlastEra.trans hera.symm) (by omega) hview (by omega)
      (by omega) hfault hrevision hadvance.accepted.2 hadvance.applied.1 hkind, hlastEra]
  constructor
  · rintro ⟨folded, candidate, hfolded, hcovered, hcandidate, hlegal⟩
    have hscaling : ∀ pair ∈ pairs, pair.op.isScaling = false := by
      by_contra hscaled
      push Not at hscaled
      exact hadvance.not_folds htabled hserving hlaid hmatching
        (hscaled.imp fun pair h => ⟨h.1, by simpa using h.2⟩) hfolded
    obtain ⟨folded', last, hfolded', -, hsound, hera, hbump, hlastEra, hview⟩ :=
      hadvance.folds htabled hserving hlaid hsome hmatching hscaling
    rw [hfolded] at hfolded'
    cases hfolded'
    refine ⟨hscaling, (hlegal_iff hsound hera hlastEra hview ?_).mp hlegal⟩
    rw [candidateWith_ok hcandidate, hbump, hcovered]
  · rintro ⟨hscaling, hnear⟩
    obtain ⟨folded, last, hfolded, hcovered, hsound, hera, hbump, hlastEra, hview⟩ :=
      hadvance.folds htabled hserving hlaid hsome hmatching hscaling
    obtain ⟨candidate, hcandidate, hdata⟩ := candidateWith_nominated hsound
      (hlastEra.trans hera.symm) hadvance.accepted.1 hadvance.applied hrevision
    refine ⟨folded, candidate, hfolded, hcovered, ?_,
      (hlegal_iff hsound hera hlastEra hview hdata).mpr hnear⟩
    rw [hcovered, hbump]
    exact hcandidate

/-! ### Slabs of joins -/

/-- The genesis primary of three nodes, serving. -/
def slabPrimary : Option (Replica SegmentedLog) :=
  (provision 1 [1, 2, 3] weightedMajority (SegmentedLog.withTailCapacity 4) .volatile
    { primaryTimeout := 0, viewChangeBudget := 1000 }).toOption.map fun r =>
      (r.step { time := 1, event := .tick }).1

/-- New members one after the other, a nomination behind each. -/
def joins (count : Nat) : List FusedPair :=
  (List.range count).map fun i => { op := .join (4 + i) (3 + i), start := i, offset := 1 }

/-- The operator's plan of the one step. -/
def submitJoins (count : Nat) : TimedInput where
  time := 1
  event := .submitPlan
    { initial := [⟨1, 1⟩, ⟨2, 1⟩, ⟨3, 1⟩], steps := [slabOps (joins count)] }

/-- The vote that completes the quorum of a slab in the first view. -/
def ackJoins (count : Nat) : TimedInput where
  time := 1
  event := .peer 2
    { header := { view := { era := 1, view := 0 }, slot := 2 + 2 * count }
      body := .fuseOk ((List.range (2 * count)).map (3 + ·)) }

/-- What the primary journals for a slab it builds. -/
def builtEntries (r : Replica SegmentedLog) (ops : List SystemOperation) :
    Option (List LogEntry) :=
  match r.planFuseBatch ops with
  | .error _ => none
  | .ok plan =>
    match plan.journal with
    | .accept entries => some entries
    | .none | .installSuffix _ _ => none

theorem builtEntries_accepts {r : Replica SegmentedLog} {ops : List SystemOperation}
    {entries : List LogEntry} (h : builtEntries r ops = some entries) :
    r.AcceptsSlab ops entries := by
  unfold builtEntries at h
  split at h
  · cases h
  · rename_i plan hplan
    split at h
    · rename_i built hjournal
      cases h
      exact .built hplan hjournal
    · cases h
    · cases h

/-- The submitted slab, journaled and about to commit at the primary. -/
structure JoinsPending (count : Nat) (r₀ r : Replica SegmentedLog) (entries : List LogEntry) :
    Prop where
  before : r₀.Reached
  reached : r.Reached
  accepts : r₀.AcceptsSlab (slabOps (joins count)) entries
  config : r.progress.config.current.config = r₀.progress.config.current.config
  matching : Matching r.progress.current.view (joins count)
  serving : r.progress.status = .normal
  fault : r.progress.fault = none
  revision : r.progress.revision + 1 < u64Bound
  eras : r.progress.config.current.era = r.progress.current.era
  advance : r.AdvancesOver [] (r₀.progress.accepted + 1) entries (2 + 2 * count) (2 + 2 * count) 2

/-- The same, computed. -/
def joinsPending (count : Nat) (r₀ r : Replica SegmentedLog) (entries : List LogEntry) : Bool :=
  builtEntries r₀ (slabOps (joins count)) == some entries &&
    decide (r.progress.config.current.config = r₀.progress.config.current.config) &&
    decide (Matching r.progress.current.view (joins count)) &&
    decide (r.progress.status = .normal) && r.progress.fault.isNone &&
    decide (r.progress.revision + 1 < u64Bound) &&
    decide (r.progress.config.current.era = r.progress.current.era) &&
    decide (r₀.progress.accepted = 2) && decide (r.progress.committed = 2) &&
    decide (entries.length = 2 * count) && decide (r.progress.applied ≤ 2) &&
    decide (r.progress.accepted = 2 + 2 * count) &&
    entries.all (fun entry => decide (merged r.journal [] entry.slot = some entry)) &&
    match r.foldCommitted [] r.progress.committed (2 + 2 * count) true with
    | .error .splitBatch => false
    | .error _ => true
    | .ok folded => !folded.stopped

theorem joinsPending_spec {count : Nat} {r₀ r : Replica SegmentedLog} {entries : List LogEntry}
    (hbefore : r₀.Reached) (hreached : r.Reached)
    (h : joinsPending count r₀ r entries = true) : JoinsPending count r₀ r entries := by
  unfold joinsPending at h
  simp only [Bool.and_eq_true, beq_iff_eq, decide_eq_true_eq, Option.isNone_iff_eq_none,
    List.all_eq_true] at h
  obtain ⟨⟨⟨⟨⟨⟨⟨⟨⟨⟨⟨⟨⟨hbuilt, hconfig⟩, hmatching⟩, hserving⟩, hfault⟩, hrevision⟩, heras⟩,
    hfirst⟩, hcommitted⟩, hlength⟩, happlied⟩, haccepted⟩, hheld⟩, hfold⟩ := h
  refine ⟨hbefore, hreached, builtEntries_accepts hbuilt, hconfig, hmatching, hserving, hfault,
    hrevision, heras, ?_⟩
  rw [hfirst]
  refine ⟨by omega, fun slot hlow hhigh => by omega, hheld, by omega,
    fun slot hlow hhigh => by omega, fun hsplit => ?_, fun folded hfolded => ?_, by omega,
    by omega⟩
  · rw [hsplit] at hfold
    cases hfold
  · rw [hfolded] at hfold
    simpa using hfold

theorem slabPrimary_reached {r : Replica SegmentedLog} (h : slabPrimary = some r) : r.Reached := by
  obtain ⟨fresh, hfresh, rfl⟩ := Option.map_eq_some_iff.mp h
  exact (Reached.provision (toOption_eq_some hfresh)).step _

/-- A submitted slab at the primary, found pending by computation. -/
theorem submitted_pending (count : Nat)
    (h : (slabPrimary.map fun r₀ => joinsPending count r₀ (r₀.step (submitJoins count)).1
      ((builtEntries r₀ (slabOps (joins count))).getD [])) = some true) :
    ∃ r₀ entries, slabPrimary = some r₀ ∧
      JoinsPending count r₀ (r₀.step (submitJoins count)).1 entries := by
  obtain ⟨r₀, hr₀, hpending⟩ := Option.map_eq_some_iff.mp h
  have hreached := slabPrimary_reached hr₀
  exact ⟨r₀, _, hr₀, joinsPending_spec hreached (hreached.step _) hpending⟩

/-- Two joins commit in one advance. -/
theorem fusedAdvance_admitted_two : ∃ (r₀ r : Replica SegmentedLog) (entries : List LogEntry),
    JoinsPending 2 r₀ r entries ∧ r.Admits [] 6 6 2 (.peerMessage .fuseOk 6) := by
  obtain ⟨r₀, entries, -, h⟩ := submitted_pending 2 (by decide +kernel)
  refine ⟨r₀, _, entries, h, ?_⟩
  refine (fusedAdvance_admitted_iff h.reached (by decide) (by decide) h.accepts h.config h.matching
    h.serving h.fault h.revision h.advance rfl).mpr ⟨by decide, ?_⟩
  rw [h.eras]
  exact Nat.le_refl _

/-- **Three joins fault the primary that built the slab.** The commit walks three eras and the
table has records of two. -/
theorem three_joins_fault : ∃ (r₀ r : Replica SegmentedLog) (entries : List LogEntry),
    JoinsPending 3 r₀ r entries ∧ r = (r₀.step (submitJoins 3)).1 ∧
      ¬r.Admits [] 8 8 2 (.peerMessage .fuseOk 8) ∧
      (r.step (ackJoins 3)).1.progress.fault = some .illegalTransition := by
  obtain ⟨r₀, entries, hr₀, h⟩ := submitted_pending 3 (by decide +kernel)
  have hrun : (slabPrimary.map fun r₀ =>
      ((r₀.step (submitJoins 3)).1.admits [] 8 8 2 (.peerMessage .fuseOk 8),
        ((r₀.step (submitJoins 3)).1.step (ackJoins 3)).1.progress.fault)) =
      some (false, some .illegalTransition) := by decide +kernel
  rw [hr₀, Option.map_some, Option.some.injEq, Prod.mk.injEq] at hrun
  refine ⟨r₀, _, entries, h, rfl, fun hadmits => ?_, hrun.2⟩
  rw [admits_iff.mpr hadmits] at hrun
  cases hrun.1

end Replica

end UvrrCore
