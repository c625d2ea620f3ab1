import UvrrCore.Slab
import UvrrCore.Wire

/-!
# What a fused envelope can crash on

A node judges a fused envelope by folding its operations in their order, each by the applier
inside an era. That applier has no arm for the genesis operations and for a batch: the commit
fold routes them elsewhere, and the fold of a slab does not. The codec admits every operation
at every place of the list, so an envelope of the view's primary whose fold gets as far as such
an operation stops the process of its receiver. Nothing else in the handler panics.
-/

namespace UvrrCore

/-! ### The applier inside an era -/

/-- The operations the dispatchers keep from the applier inside an era. -/
def SystemOperation.isRouted : SystemOperation → Bool
  | .void | .init _ | .batch _ => true
  | .increment _ | .decrement _ | .double | .halve | .join _ _ | .leave _ | .nominate _ _ => false

/-- A computation of several steps fails with what one of its steps fails with. -/
theorem bind_ne_error {ε α β : Type} {x : Except ε α} {f : α → Except ε β} {error : ε}
    (hfirst : x ≠ .error error) (hrest : ∀ a, x = .ok a → f a ≠ .error error) :
    (x >>= f) ≠ .error error := by
  cases x with
  | error other =>
    intro h
    cases h
    exact hfirst rfl
  | ok a => exact hrest a rfl

theorem ok_ne_error {ε α : Type} (a : α) (error : ε) : (Except.ok a : Except ε α) ≠ .error error :=
  fun h => by cases h

theorem mapM_error {α β ε : Type} {f : α → Except ε β} {items : List α} {error : ε}
    (h : items.mapM f = .error error) : ∃ item ∈ items, f item = .error error := by
  induction items with
  | nil => cases h
  | cons item items ih =>
    rw [List.mapM_cons] at h
    cases hitem : f item with
    | error error' =>
      rw [hitem] at h
      cases h
      exact ⟨item, List.mem_cons_self .., hitem⟩
    | ok value =>
      rw [hitem] at h
      cases hitems : items.mapM f with
      | error error' =>
        have hrest : items.mapM f = .error error := by
          rw [hitems]
          change (items.mapM f >>= _) = _ at h
          rw [hitems] at h
          cases h
          rfl
        obtain ⟨other, hmem, hother⟩ := ih hrest
        exact ⟨other, List.mem_cons_of_mem _ hmem, hother⟩
      | ok values =>
        change (items.mapM f >>= _) = _ at h
        rw [hitems] at h
        cases h

namespace Configuration

theorem applyInEra_panicked_iff {c : Configuration} {op : SystemOperation} :
    c.applyInEra op = .error .panicked ↔ op.isRouted = true := by
  have hscaled : ∀ {scale : Member → Except ConfigError Member},
      (∀ member, scale member ≠ .error .panicked) →
        (do let order ← c.order.mapM scale
            return ({ c with order := order } : Configuration)) ≠ .error .panicked := by
    intro scale hscale h
    cases horder : c.order.mapM scale with
    | error error =>
      rw [horder] at h
      cases h
      obtain ⟨member, -, hmember⟩ := mapM_error horder
      exact hscale member hmember
    | ok order =>
      rw [horder] at h
      cases h
  cases op with
  | void | init _ | batch _ => simp [applyInEra, SystemOperation.isRouted]
  | increment node =>
    simp only [applyInEra, SystemOperation.isRouted]
    split <;> [skip; split] <;> simp
  | decrement node =>
    simp only [applyInEra, SystemOperation.isRouted]
    split <;> [skip; (split <;> [skip; split])] <;> simp
  | double =>
    refine iff_of_false (hscaled fun member => ?_) (by simp [SystemOperation.isRouted])
    unfold doubled
    split <;> simp
  | halve =>
    refine iff_of_false (hscaled fun member => ?_) (by simp [SystemOperation.isRouted])
    unfold halved
    split <;> simp
  | join node position =>
    simp only [applyInEra, SystemOperation.isRouted]
    split <;> [skip; (split <;> [skip; split])] <;> simp
  | leave node =>
    simp only [applyInEra, SystemOperation.isRouted]
    split <;> [skip; split] <;> simp
  | nominate start offset =>
    simp only [applyInEra, SystemOperation.isRouted]
    split <;> simp

/-- The fold of a slab gets as far as an operation it has no arm for. -/
def ReachesRouted (c : Configuration) (ops : List SystemOperation) : Prop :=
  ∃ before op rest folded, ops = before ++ op :: rest ∧ op.isRouted = true ∧
    c.foldSlots before = .ok folded

/-- Past an operation that folds, the fold of a slab is out of eras or goes on with the rest. -/
theorem foldSlots_go_cons {c next : Configuration} (eras : List Nat) {op : SystemOperation}
    (h : c.applyInEra op = .ok next) :
    (∀ ops, foldSlots.go eras c (op :: ops) = .error .eraExhausted) ∨
      ∃ stamp c', ∀ ops,
        foldSlots.go eras c (op :: ops) = foldSlots.go (eras ++ [stamp]) c' ops := by
  by_cases hnominate : op.isNominate = true
  · refine .inr ⟨eras.getLast?.getD c.era, next, fun ops => ?_⟩
    simp only [foldSlots.go, h, hnominate, if_true]
    rfl
  · cases hera : Era.next next.era with
    | none =>
      refine .inl fun ops => ?_
      simp [foldSlots.go, h, hnominate, hera, bind, Except.bind]
      rfl
    | some era =>
      refine .inr ⟨c.era, { next with era := era }, fun ops => ?_⟩
      simp [foldSlots.go, h, hnominate, hera, bind, Except.bind]

/-- The fold of a slab stamps every operation. -/
theorem foldSlots_go_length {c : Configuration} {eras : List Nat} {ops : List SystemOperation}
    {folded : List Nat × Configuration} (h : foldSlots.go eras c ops = .ok folded) :
    folded.1.length = eras.length + ops.length := by
  induction ops generalizing c eras with
  | nil =>
    cases h
    rfl
  | cons op ops ih =>
    cases happly : c.applyInEra op with
    | error error =>
      simp only [foldSlots.go, happly] at h
      cases h
    | ok next =>
      rcases foldSlots_go_cons eras happly with hspent | ⟨stamp, c', hgoes⟩
      · rw [hspent] at h
        cases h
      · rw [hgoes] at h
        rw [ih h, List.length_append, List.length_singleton, List.length_cons]
        omega

/-- **The fold of a slab panics exactly when it gets as far as an operation it has no arm for.** -/
theorem foldSlots_panicked_iff {c : Configuration} {ops : List SystemOperation} :
    c.foldSlots ops = .error .panicked ↔ c.ReachesRouted ops := by
  unfold foldSlots ReachesRouted foldSlots
  generalize ([] : List Nat) = eras
  induction ops generalizing c eras with
  | nil =>
    refine iff_of_false (fun h => by cases h) ?_
    rintro ⟨before, op, rest, folded, heq, -⟩
    simp at heq
  | cons op ops ih =>
    by_cases hrouted : op.isRouted = true
    · have hpanicked : c.applyInEra op = .error .panicked := applyInEra_panicked_iff.mpr hrouted
      refine iff_of_true ?_ ⟨[], op, ops, (eras, c), rfl, hrouted, rfl⟩
      simp only [foldSlots.go, hpanicked]
      rfl
    · have hsplit : ∀ {before : List SystemOperation} {first : SystemOperation}
          {rest : List SystemOperation}, op :: ops = before ++ first :: rest →
          first.isRouted = true → ∃ before', before = op :: before' ∧
            ops = before' ++ first :: rest := by
        intro before first rest heq hfirst
        cases before with
        | nil =>
          cases heq
          exact absurd hfirst hrouted
        | cons _ before' =>
          cases heq
          exact ⟨before', rfl, rfl⟩
      cases happly : c.applyInEra op with
      | error error =>
        have hstuck : ∀ ops, foldSlots.go eras c (op :: ops) = .error error := by
          intro ops
          simp only [foldSlots.go, happly]
          rfl
        constructor
        · intro h
          rw [hstuck] at h
          cases h
          exact absurd (applyInEra_panicked_iff.mp happly) hrouted
        · rintro ⟨before, first, rest, folded, heq, hfirst, hfolded⟩
          obtain ⟨before', rfl, -⟩ := hsplit heq hfirst
          rw [hstuck] at hfolded
          cases hfolded
      | ok next =>
        rcases foldSlots_go_cons eras happly with hspent | ⟨stamp, c', hgoes⟩
        · rw [hspent]
          refine iff_of_false (fun h => by cases h) ?_
          rintro ⟨before, first, rest, folded, heq, hfirst, hfolded⟩
          obtain ⟨before', rfl, -⟩ := hsplit heq hfirst
          rw [hspent] at hfolded
          cases hfolded
        · rw [hgoes, ih]
          constructor
          · rintro ⟨before, first, rest, folded, rfl, hfirst, hfolded⟩
            exact ⟨op :: before, first, rest, folded, rfl, hfirst, (hgoes before).trans hfolded⟩
          · rintro ⟨before, first, rest, folded, heq, hfirst, hfolded⟩
            obtain ⟨before', rfl, hops⟩ := hsplit heq hfirst
            exact ⟨before', first, rest, folded, hops, hfirst, (hgoes before').symm.trans hfolded⟩

/-- A batch that passes the shape check holds no routed operation. -/
theorem batchShape_routed {ops : List SystemOperation} (h : batchShape ops = .ok ()) :
    ∀ op ∈ ops, op.isRouted = false := by
  induction ops with
  | nil => exact fun op hmem => by cases hmem
  | cons first rest ih =>
    intro op hmem
    cases first with
    | void | init _ | batch _ => cases h
    | increment _ | decrement _ | double | halve | join _ _ | leave _ | nominate _ _ =>
      rcases List.mem_cons.mp hmem with rfl | hmem
      · rfl
      · exact ih h op hmem

theorem batchShape_ne_panicked (ops : List SystemOperation) :
    batchShape ops ≠ .error .panicked := by
  induction ops with
  | nil => exact ok_ne_error _ _
  | cons first rest ih =>
    cases first with
    | void | init _ | batch _ => exact fun h => by cases h
    | increment _ | decrement _ | double | halve | join _ _ | leave _ | nominate _ _ => exact ih

theorem applyAllInEra_ne_panicked {c : Configuration} {ops : List SystemOperation}
    (h : ∀ op ∈ ops, op.isRouted = false) : c.applyAllInEra ops ≠ .error .panicked := by
  induction ops generalizing c with
  | nil => exact ok_ne_error _ _
  | cons op ops ih =>
    refine bind_ne_error (fun hpanicked => ?_) fun next _ =>
      ih fun other hmem => h other (List.mem_cons_of_mem _ hmem)
    have hrouted := applyInEra_panicked_iff.mp hpanicked
    rw [h op (List.mem_cons_self ..)] at hrouted
    cases hrouted

theorem successorEra_ne_panicked (c : Configuration) : c.successorEra ≠ .error .panicked := by
  unfold successorEra
  split
  · exact fun h => by cases h
  · split <;> exact fun h => by cases h

theorem applyBatch_ne_panicked (c : Configuration) (ops : List SystemOperation) :
    c.applyBatch ops ≠ .error .panicked := by
  unfold applyBatch
  split
  · exact fun h => by cases h
  · refine bind_ne_error ?_ fun _ hshape => ?_
    · exact batchShape_ne_panicked ops
    · dsimp only
      split
      · exact fun h => by cases h
      · refine bind_ne_error c.successorEra_ne_panicked fun era _ => ?_
        refine bind_ne_error (applyAllInEra_ne_panicked (batchShape_routed hshape)) fun next _ => ?_
        split
        · exact fun h => by cases h
        · exact ok_ne_error _ _

/-- The commit fold never gets to such an operation: it routes each of them elsewhere. -/
theorem apply_ne_panicked (c : Configuration) (op : SystemOperation) (slot : Nat) :
    c.apply op slot ≠ .error .panicked := by
  have hsingle : op.isRouted = false → (do
      let era ← c.successorEra
      let next ← c.applyInEra op
      return ({ next with era := era } : Configuration)) ≠ .error .panicked := by
    intro hrouted
    refine bind_ne_error c.successorEra_ne_panicked fun era _ =>
      bind_ne_error (fun hpanicked => ?_) fun next _ => ok_ne_error _ _
    rw [applyInEra_panicked_iff.mp hpanicked] at hrouted
    cases hrouted
  cases op with
  | void =>
    rw [apply]
    split <;> [skip; split] <;> exact fun h => by cases h
  | init order =>
    rw [apply]
    split <;> [skip; (split <;> [skip; (split <;> [skip; (split <;> [skip; split])])])] <;>
      exact fun h => by cases h
  | batch ops => exact c.applyBatch_ne_panicked ops
  | nominate start offset => exact fun h => by cases h
  | increment _ | decrement _ | double | halve | join _ _ | leave _ => exact hsingle rfl

end Configuration

/-! ### The handler -/

theorem systemWalk_ne_panicked {read : Nat → Option LogEntry} (left walked : Nat) :
    systemWalk read left walked ≠ .error .panicked := by
  induction left generalizing walked with
  | zero => exact ok_ne_error _ _
  | succ left ih =>
    rw [systemWalk]
    split
    · exact fun h => by cases h
    · split
      · exact ih _
      · exact ok_ne_error _ _

theorem applyRange_ne_panicked {read : Nat → Option LogEntry} (left slot : Nat) :
    applyRange read left slot ≠ .error .panicked := by
  induction left generalizing slot with
  | zero => exact ok_ne_error _ _
  | succ left ih =>
    rw [applyRange]
    split
    · exact fun h => by cases h
    · refine bind_ne_error (ih _) fun rest _ => ?_
      split <;> exact ok_ne_error _ _

namespace Replica

variable {J : Type} [Journal J]

theorem asCandidate_ne_panicked (result : Except ProgressError Progress) :
    asCandidate result ≠ .error .panicked := by
  cases result <;> exact fun h => by cases h

omit [Journal J] in
theorem nextRecord_ne_panicked (r : Replica J) (data : ProgressData) :
    r.nextRecord data ≠ .error .panicked := by
  unfold nextRecord
  split
  · exact asCandidate_ne_panicked _
  · exact fun h => by cases h

omit [Journal J] in
theorem emitPlan_ne_panicked (r : Replica J) (effects : List Effect) (kind : InputKind) :
    r.emitPlan effects kind ≠ .error .panicked :=
  bind_ne_error (asCandidate_ne_panicked _) fun _ _ => ok_ne_error _ _

omit [Journal J] in
theorem dropPlan_ne_panicked (r : Replica J) (diagnostic : Diagnostic) (kind : InputKind) :
    r.dropPlan diagnostic kind ≠ .error .panicked :=
  bind_ne_error (r.emitPlan_ne_panicked _ _) fun _ _ => ok_ne_error _ _

omit [Journal J] in
theorem breachPlan_ne_panicked (r : Replica J) (kind : InputKind) :
    r.breachPlan kind ≠ .error .panicked :=
  bind_ne_error (r.emitPlan_ne_panicked _ _) fun _ _ => ok_ne_error _ _

omit [Journal J] in
theorem eraProof_ne_panicked (r : Replica J) (era : Nat) : r.eraProof era ≠ .error .panicked := by
  unfold eraProof
  split
  · exact fun h => by cases h
  · exact ok_ne_error _ _

theorem planWinView_ne_panicked (r : Replica J) (target : Ballot) (selected : Evidence)
    (evidence : OrdMap Nat Evidence) (effects : List Effect) (time : Nat) (kind : InputKind) :
    r.planWinView target selected evidence effects time kind ≠ .error .panicked := by
  simp only [planWinView]
  split
  · exact ok_ne_error _ _
  · split
    · exact ok_ne_error _ _
    · exact bind_ne_error (r.breachPlan_ne_panicked _) fun _ _ => ok_ne_error _ _
    · refine bind_ne_error (systemWalk_ne_panicked _ _) fun _ _ => ?_
      split
      · exact fun h => by cases h
      · exact bind_ne_error (r.dropPlan_ne_panicked _ _) fun _ _ => ok_ne_error _ _
      · exact bind_ne_error (r.breachPlan_ne_panicked _) fun _ _ => ok_ne_error _ _
      · refine bind_ne_error (r.nextRecord_ne_panicked _) fun _ _ => ?_
        refine bind_ne_error (applyRange_ne_panicked _ _) fun _ _ => ?_
        exact bind_ne_error (bind_ne_error (r.eraProof_ne_panicked _) fun _ _ => ok_ne_error _ _)
          fun _ _ => ok_ne_error _ _

theorem recordOwnEvidence_ne_panicked (r : Replica J) (config : Configuration)
    (attempt : ViewChangeVolatile) (effects : List Effect) :
    r.recordOwnEvidence config attempt effects ≠ .error .panicked := by
  unfold recordOwnEvidence
  split
  · exact ok_ne_error _ _
  · split
    · exact ok_ne_error _ _
    · dsimp only
      split
      · exact ok_ne_error _ _
      · refine bind_ne_error ?_ fun _ _ => ok_ne_error _ _
        unfold doViewChangeEffect
        split
        · exact fun h => by cases h
        · exact bind_ne_error (r.eraProof_ne_panicked _) fun _ _ => ok_ne_error _ _

theorem continueViewChange_ne_panicked (r : Replica J) (candidate : Progress)
    (attempt : ViewChangeVolatile) (effects : List Effect) (time : Nat) (kind : InputKind) :
    r.continueViewChange candidate attempt effects time kind ≠ .error .panicked := by
  unfold continueViewChange
  dsimp only
  split
  · exact r.dropPlan_ne_panicked _ _
  · refine bind_ne_error (r.recordOwnEvidence_ne_panicked _ _ _) fun recorded _ => ?_
    split
    · split
      · exact ok_ne_error _ _
      · refine bind_ne_error (r.planWinView_ne_panicked _ _ _ _ _ _) fun outcome _ => ?_
        split
        · exact ok_ne_error _ _
        · split <;> exact ok_ne_error _ _
    · exact ok_ne_error _ _

theorem planHigherViewSignal_ne_panicked (r : Replica J) (sender : Nat) (view : Ballot)
    (time : Nat) (kind : InputKind) :
    r.planHigherViewSignal sender view time kind ≠ .error .panicked := by
  refine bind_ne_error (bind_ne_error (asCandidate_ne_panicked _) fun candidate _ =>
    r.continueViewChange_ne_panicked _ _ _ _ _) fun plan _ => ?_
  split <;> exact ok_ne_error _ _

theorem slabEntries_ne_panicked (slot : Nat) (ops : List SystemOperation) (eras : List Nat) :
    slabEntries slot ops eras ≠ .error .panicked := by
  induction ops generalizing slot eras with
  | nil => cases eras <;> exact ok_ne_error _ _
  | cons op ops ih =>
    cases eras with
    | nil => exact ok_ne_error _ _
    | cons era eras =>
      rw [slabEntries]
      split
      · exact bind_ne_error (ih _ _) fun _ _ => ok_ne_error _ _
      · exact fun h => by cases h

/-- **The envelope is judged**: it comes from the primary of the current view, which is another
node, to a replica that serves the view or still waits at its boot fence, and begins right
behind the accepted frontier. -/
structure JudgesFuse (r : Replica J) (sender : Nat) (header : Header) : Prop where
  known : (r.progress.config.record header.view.era).isSome
  primary : r.primaryOf header.view = some sender
  other : sender ≠ r.own
  view : header.view = r.progress.current
  serving : r.progress.status = .normal ∨ r.bootFenced = true
  slot : Slot.next r.progress.accepted = some header.slot

/-- A slab of stamped operations has entries. -/
theorem slabEntries_ne_nil {slot : Nat} {ops : List SystemOperation} {eras : List Nat}
    {entries : List LogEntry} (hops : ops ≠ []) (heras : eras.length = ops.length)
    (h : slabEntries slot ops eras = .ok entries) : entries ≠ [] := by
  cases ops with
  | nil => exact absurd rfl hops
  | cons op ops =>
    cases eras with
    | nil => cases heras
    | cons era eras =>
      rw [slabEntries] at h
      split at h
      · obtain ⟨rest, -, h⟩ := bind_eq_ok.mp h
        rw [← pure_eq_ok.mp h]
        exact List.cons_ne_nil _ _
      · cases h

/-- **When the handler of a fused envelope panics.** -/
theorem planFuse_panicked_iff (r : Replica J) (sender : Nat) (message : Message)
    {ops : List SystemOperation} (hops : ops ≠ []) (time : Nat) (kind : InputKind) :
    r.planFuse sender message ops time kind = .error .panicked ↔
      r.JudgesFuse sender message.header ∧
        r.progress.config.current.config.ReachesRouted ops := by
  have hdrop : ∀ {P : Prop}, ¬ P →
      (r.dropPlan .fuseRefusal kind = .error .panicked ↔
        P ∧ r.progress.config.current.config.ReachesRouted ops) :=
    fun hnot => iff_of_false (r.dropPlan_ne_panicked _ _) fun h => hnot h.1
  simp only [planFuse]
  split
  · rename_i hunknown
    exact hdrop fun h => by simpa [Option.isNone_iff_eq_none.mp hunknown] using h.known
  · split
    · rename_i hprimary
      exact hdrop fun h => hprimary h.primary
    · split
      · rename_i hown
        exact hdrop fun h => h.other (Option.some.inj (h.primary.symm.trans hown))
      · split
        · rename_i hhigher
          refine iff_of_false (r.planHigherViewSignal_ne_panicked _ _ _ _) fun h => ?_
          rw [h.1.view] at hhigher
          exact absurd hhigher.1 (lt_irrefl _)
        · split
          · rename_i hserving
            exact hdrop fun h => hserving ⟨h.view, h.serving⟩
          · rename_i hknown hprimary hown _ hserving
            rw [not_not] at hprimary hserving
            split
            · rename_i hspent
              refine iff_of_false (fun h => by cases h) fun h => ?_
              rw [h.1.slot] at hspent
              cases hspent
            · rename_i firstSlot hfirst
              split
              · rename_i hslot
                exact hdrop fun h => hslot (Option.some.inj (h.slot.symm.trans hfirst))
              · rename_i hslot
                rw [not_not] at hslot
                have hjudged : r.JudgesFuse sender message.header :=
                  ⟨Option.isSome_iff_ne_none.mpr (by simpa using hknown), hprimary,
                    fun heq => hown (by rw [hprimary, heq]), hserving.1, hserving.2,
                    by rw [hfirst, hslot]⟩
                rw [← Configuration.foldSlots_panicked_iff, and_iff_right hjudged]
                cases hfold : r.progress.config.current.config.foldSlots ops with
                | error error =>
                  cases error
                  case panicked => exact Iff.intro (fun _ => rfl) fun _ => rfl
                  all_goals
                    exact iff_of_false (r.dropPlan_ne_panicked _ _) fun h => by cases h
                | ok folded =>
                  refine iff_of_false ?_ fun h => by cases h
                  refine bind_ne_error (slabEntries_ne_panicked _ _ _) fun entries hentries => ?_
                  have hlength := Configuration.foldSlots_go_length hfold
                  rw [List.length_nil, Nat.zero_add] at hlength
                  split
                  · rename_i hnone
                    exact absurd (List.getLast?_eq_none_iff.mp hnone)
                      (slabEntries_ne_nil hops hlength hentries)
                  · exact bind_ne_error (r.nextRecord_ne_panicked _) fun _ _ => ok_ne_error _ _

/-- **When the handling of a fused envelope is total**: unless the envelope is judged and its fold
gets as far as an operation without an arm. -/
theorem planFuse_total_iff (r : Replica J) (sender : Nat) (message : Message)
    {ops : List SystemOperation} (hops : ops ≠ []) (time : Nat) (kind : InputKind) :
    r.planFuse sender message ops time kind ≠ .error .panicked ↔
      (r.JudgesFuse sender message.header →
        ¬ r.progress.config.current.config.ReachesRouted ops) := by
  rw [Ne, planFuse_panicked_iff r sender message hops time kind, not_and]

/-- A backup of the fresh cluster of three, which waits for its primary. -/
def waitingBackup : Option (Replica SegmentedLog) :=
  (provision 2 [1, 2, 3] weightedMajority (SegmentedLog.withTailCapacity 4) .volatile
    { primaryTimeout := 0, viewChangeBudget := 1000 }).toOption

/-- Three joins and a promotion are planned by a waiting backup. -/
theorem planFuse_total_joins : ∃ r : Replica SegmentedLog, r.Reached ∧
    r.planFuse 1 ⟨⟨⟨1, 0⟩, 3⟩, .fuse [.join 4 3, .increment 4]⟩ [.join 4 3, .increment 4] 1
      (.peerMessage .fuse 3) ≠ .error .panicked := by
  have hsome : waitingBackup.isSome := by decide +kernel
  obtain ⟨r, hr⟩ := Option.isSome_iff_exists.mp hsome
  refine ⟨r, .provision (toOption_eq_some hr), ?_⟩
  refine (planFuse_total_iff r 1 _ (List.cons_ne_nil _ _) 1 _).mpr fun _ hreaches => ?_
  obtain ⟨before, op, rest, folded, hops, hrouted, -⟩ := hreaches
  have hmem : op ∈ ([.join 4 3, .increment 4] : List SystemOperation) := by
    rw [hops]
    exact List.mem_append_right _ (List.mem_cons_self ..)
  simp only [List.mem_cons, List.not_mem_nil, or_false] at hmem
  rcases hmem with rfl | rfl <;> cases hrouted

/-- **A batch inside the envelope crashes its receiver.** The bytes decode, and the handler of a
waiting backup panics on the message they hold. -/
theorem nested_batch_panics : ∃ (r : Replica SegmentedLog) (buf : ByteCodec.Slice), r.Reached ∧
    unpackFrom WireMessage.unpack buf =
      .ok ⟨⟨.fuse, ⟨1, 0⟩, 3⟩, .fuse [.batch [.increment 3]]⟩ ∧
    r.planFuse 1 ⟨⟨⟨1, 0⟩, 3⟩, .fuse [.batch [.increment 3]]⟩ [.batch [.increment 3]] 1
      (.peerMessage .fuse 3) = .error .panicked := by
  have hrun : (waitingBackup.map fun r => decide (
      (r.progress.config.record 1).isSome = true ∧ r.primaryOf ⟨1, 0⟩ = some 1 ∧ r.own = 2 ∧
        r.progress.current = ⟨1, 0⟩ ∧ r.bootFenced = true ∧
        r.progress.accepted = 2)) = some true := by decide +kernel
  obtain ⟨r, hr, hrun⟩ := Option.map_eq_some_iff.mp hrun
  obtain ⟨hknown, hprimary, hown, hview, hfenced, haccepted⟩ := of_decide_eq_true hrun
  let message : WireMessage := ⟨⟨.fuse, ⟨1, 0⟩, 3⟩, .fuse [.batch [.increment 3]]⟩
  have hvalid : message.Encodable := by
    refine ⟨⟨⟨by decide, by decide⟩, by decide⟩, ⟨by decide, by decide, ?_⟩, rfl⟩
    intro op hop
    rw [List.mem_singleton.mp hop]
    simp only [SystemOperation.Encodable, SystemOperation.AllEncodable]
    decide
  refine ⟨r, ⟨message.pack, by decide⟩, .provision (toOption_eq_some hr),
    (unpackFrom_eq_ok WireMessage.unpack_decodes).mpr ⟨hvalid, rfl⟩, ?_⟩
  refine (planFuse_panicked_iff r 1 _ (List.cons_ne_nil _ _) 1 _).mpr ⟨?_, ?_⟩
  · exact ⟨hknown, hprimary, by rw [hown]; decide, hview.symm, .inr hfenced,
      by rw [haccepted]; rfl⟩
  · exact ⟨[], _, [], ([], _), rfl, rfl, rfl⟩

end Replica

end UvrrCore
