import UvrrCore.Lawful
import UvrrCore.Replica.Reincarnation

/-!
# The batching planner

`Configuration.plan` partitions a list of operations into batches, each taken as far as the fold
of a batch accepts it. `applyEach` is the other way to fold the list: one operation and one era at
a time. Both come down to the in-era fold. A batch of one operation is judged as the operation
is, because one operation moves at most one unit, and the era plays no part in the judgement. So
the planner never refuses what the one-at-a-time fold accepts, and it accepts more in two ways
only: it spends an era on a batch, and a nomination may ride.
-/

namespace UvrrCore

/-- Neither of the genesis pair nor a batch. -/
def SystemOperation.isSingle : SystemOperation → Bool
  | void | init _ | batch _ => false
  | _ => true

namespace Configuration

/-- The operations one at a time, an era each. The slot matters to the genesis pair only. -/
def applyEach (c : Configuration) : List SystemOperation → Except ConfigError Configuration
  | [] => .ok c
  | op :: rest => do
    let next ← c.apply op Slot.none
    next.applyEach rest

/-- The eras the configuration has ahead of it. -/
def erasLeft (c : Configuration) : Nat := u32Bound - 1 - c.era

/-! ### The fold inside an era -/

/-- **The era plays no part in the judgement of an operation.** -/
theorem applyInEra_withEra {c next : Configuration} (hc : c.Voting) {op : SystemOperation}
    (h : c.applyInEra op = .ok next) (era : Nat) :
    ({ c with era := era } : Configuration).applyInEra op = .ok { next with era := era } := by
  obtain ⟨hadmits, rfl⟩ := (applyInEra_eq_ok hc.nodup).mp h
  refine (applyInEra_eq_ok (hc.withEra era).nodup).mpr ⟨?_, ?_⟩
  · cases op <;> exact hadmits
  · cases op <;> rfl

theorem applyAllInEra_withEra {c next : Configuration} (hc : c.Voting)
    {ops : List SystemOperation} (h : c.applyAllInEra ops = .ok next) (era : Nat) :
    ({ c with era := era } : Configuration).applyAllInEra ops = .ok { next with era := era } := by
  induction ops generalizing c with
  | nil =>
    cases h
    rfl
  | cons op rest ih =>
    rw [applyAllInEra] at h ⊢
    obtain ⟨middle, hmiddle, h⟩ := bind_eq_ok.mp h
    exact bind_eq_ok.mpr ⟨_, applyInEra_withEra hc hmiddle era, ih (hc.applyInEra hmiddle) h⟩

theorem applyAllInEra_singleton {c next : Configuration} {op : SystemOperation} :
    c.applyAllInEra [op] = .ok next ↔ c.applyInEra op = .ok next := by
  simp [applyAllInEra, bind_eq_ok]

/-! ### One establishing operation -/

theorem successorEra_eq_ok {c : Configuration} {era : Nat} :
    c.successorEra = .ok era ↔ c.order ≠ [] ∧ c.era + 1 < u32Bound ∧ era = c.era + 1 := by
  rw [successorEra]
  by_cases hempty : c.order = []
  · rw [if_pos (by simpa using hempty)]
    exact ⟨fun h => (by cases h), fun h => absurd hempty h.1⟩
  · rw [if_neg (by simpa using hempty), ← Era.next_eq_some]
    cases Era.next c.era with
    | none => simp
    | some next => simp [hempty]

/-- An operation that establishes an era alone. -/
theorem apply_single {c next : Configuration} {op : SystemOperation} {slot : Nat}
    (hsingle : op.isSingle = true) :
    c.apply op slot = .ok next ↔
      op.isNominate = false ∧ c.order ≠ [] ∧ c.era + 1 < u32Bound ∧
        ∃ folded, c.applyInEra op = .ok folded ∧ next = { folded with era := c.era + 1 } := by
  have hfold : (do
      let era ← c.successorEra
      let next ← c.applyInEra op
      return { next with era := era }) = Except.ok next ↔ c.order ≠ [] ∧ c.era + 1 < u32Bound ∧
        ∃ folded, c.applyInEra op = .ok folded ∧ next = { folded with era := c.era + 1 } := by
    simp only [bind_eq_ok, successorEra_eq_ok, pure_eq_ok]
    constructor
    · rintro ⟨era, ⟨hne, hroom, rfl⟩, folded, hfolded, rfl⟩
      exact ⟨hne, hroom, folded, hfolded, rfl⟩
    · rintro ⟨hne, hroom, folded, hfolded, rfl⟩
      exact ⟨_, ⟨hne, hroom, rfl⟩, folded, hfolded, rfl⟩
  cases op with
  | void => cases hsingle
  | init order => cases hsingle
  | batch ops => cases hsingle
  | nominate fromView offset =>
    exact ⟨fun h => (by cases h), fun h => (by cases h.1)⟩
  | _ => exact hfold.trans (and_iff_right rfl).symm

theorem batchShape_eq_ok {ops : List SystemOperation} :
    batchShape ops = .ok () ↔ ∀ op ∈ ops, op.isSingle = true := by
  induction ops with
  | nil => simp [batchShape]
  | cons op rest ih =>
    cases op <;> simp [batchShape, SystemOperation.isSingle, ih]

/-- A scaling stands alone in its batch, and any other batch moves at most one unit. -/
def OneUnit (c : Configuration) (ops : List SystemOperation) (folded : Configuration) : Prop :=
  ops = [.double] ∨ ops = [.halve] ∨
    ((∀ op ∈ ops, op.isScaling = false) ∧ c.massMoved folded ≤ 1)

theorem any_isScaling {ops : List SystemOperation} :
    ops.any SystemOperation.isScaling = false ↔ ∀ op ∈ ops, op.isScaling = false := by
  simp

/-- The two rules of the batch, as they are checked. -/
theorem oneUnit_iff {c folded : Configuration} {ops : List SystemOperation} :
    ((!(ops.length == 1 && ops.any SystemOperation.isScaling) &&
        ops.any SystemOperation.isScaling) = false ∧
      (!(ops.length == 1 && ops.any SystemOperation.isScaling) &&
        decide (1 < c.massMoved folded)) = false) ↔ c.OneUnit ops folded := by
  constructor
  · rintro ⟨hscaling, hmoved⟩
    by_cases hsolitary : (ops.length == 1 && ops.any SystemOperation.isScaling) = true
    · exact (solitary_scaling hsolitary).imp id Or.inl
    · rw [Bool.not_eq_true] at hsolitary
      rw [hsolitary, Bool.not_false, Bool.true_and] at hscaling hmoved
      exact .inr (.inr ⟨any_isScaling.mp hscaling, by simpa using hmoved⟩)
  · rintro (rfl | rfl | ⟨hscaling, hmoved⟩)
    · exact ⟨rfl, rfl⟩
    · exact ⟨rfl, rfl⟩
    · rw [any_isScaling.mpr hscaling, Bool.and_false, Bool.and_false]
      exact ⟨rfl, by simpa using hmoved⟩

/-- **When a batch is accepted.** -/
theorem apply_batch {c next : Configuration} {ops : List SystemOperation} {slot : Nat} :
    c.apply (.batch ops) slot = .ok next ↔
      ops ≠ [] ∧ (∀ op ∈ ops, op.isSingle = true) ∧ c.order ≠ [] ∧ c.era + 1 < u32Bound ∧
        ∃ folded, c.applyAllInEra ops = .ok folded ∧ c.OneUnit ops folded ∧
          next = { folded with era := c.era + 1 } := by
  rw [apply, applyBatch]
  by_cases hempty : ops = []
  · rw [if_pos (by rw [hempty]; rfl)]
    exact ⟨fun h => (by cases h), fun h => absurd hempty h.1⟩
  rw [if_neg (by simpa using hempty)]
  rw [bind_eq_ok]
  constructor
  · rintro ⟨_, hshape, h⟩
    dsimp only at h
    split at h
    · cases h
    · rename_i hscaling
      obtain ⟨era, hera, h⟩ := bind_eq_ok.mp h
      obtain ⟨folded, hfolded, h⟩ := bind_eq_ok.mp h
      obtain ⟨hne, hroom, rfl⟩ := successorEra_eq_ok.mp hera
      split at h
      · cases h
      · rename_i hmoved
        refine ⟨hempty, batchShape_eq_ok.mp hshape, hne, hroom, folded, hfolded, ?_,
          (pure_eq_ok.mp h).symm⟩
        exact oneUnit_iff.mp ⟨Bool.not_eq_true _ ▸ hscaling, Bool.not_eq_true _ ▸ hmoved⟩
  · rintro ⟨-, hshape, hne, hroom, folded, hfolded, hunit, rfl⟩
    obtain ⟨hscaling, hmoved⟩ := oneUnit_iff.mpr hunit
    refine ⟨(), batchShape_eq_ok.mpr hshape, ?_⟩
    dsimp only
    rw [hscaling, if_neg Bool.false_ne_true]
    refine bind_eq_ok.mpr ⟨_, successorEra_eq_ok.mpr ⟨hne, hroom, rfl⟩,
      bind_eq_ok.mpr ⟨folded, hfolded, ?_⟩⟩
    rw [hmoved, if_neg Bool.false_ne_true]
    rfl

/-- **A batch of one operation is judged as the operation is.** -/
theorem apply_batch_one {c next : Configuration} (hnodup : c.nodes.Nodup) {op : SystemOperation}
    {slot : Nat} (hsingle : op.isSingle = true) :
    c.apply (.batch [op]) slot = .ok next ↔ c.order ≠ [] ∧ c.era + 1 < u32Bound ∧
      ∃ folded, c.applyInEra op = .ok folded ∧ next = { folded with era := c.era + 1 } := by
  have hunit : ∀ folded, c.applyInEra op = .ok folded → c.OneUnit [op] folded := by
    intro folded hfolded
    have hchange := (applyInEra_change hnodup hfolded).1
    cases op with
    | double => exact .inl rfl
    | halve => exact .inr (.inl rfl)
    | _ =>
      refine .inr (.inr ⟨by simp [SystemOperation.isScaling], ?_⟩)
      rw [massMoved_eq]
      exact hchange.moved_le_one rfl
  rw [apply_batch]
  constructor
  · rintro ⟨-, -, hne, hroom, folded, hfolded, -, rfl⟩
    exact ⟨hne, hroom, folded, applyAllInEra_singleton.mp hfolded, rfl⟩
  · rintro ⟨hne, hroom, folded, hfolded, rfl⟩
    exact ⟨List.cons_ne_nil _ _, by simpa using hsingle, hne, hroom, folded,
      applyAllInEra_singleton.mpr hfolded, hunit folded hfolded, rfl⟩

/-- **The one-at-a-time fold in closed form.** -/
theorem applyEach_eq_ok {c next : Configuration} (hc : c.Voting) (hera : c.era < u32Bound)
    {ops : List SystemOperation} (hsingle : ∀ op ∈ ops, op.isSingle = true) :
    c.applyEach ops = .ok next ↔
      (∀ op ∈ ops, op.isNominate = false) ∧ c.era + ops.length < u32Bound ∧
        ∃ folded, c.applyAllInEra ops = .ok folded ∧
          next = { folded with era := c.era + ops.length } := by
  induction ops generalizing c with
  | nil =>
    simp only [applyEach, applyAllInEra, List.length_nil, Nat.add_zero]
    constructor
    · rintro h
      cases h
      exact ⟨fun _ hmem => absurd hmem List.not_mem_nil, hera, _, rfl, rfl⟩
    · rintro ⟨-, -, folded, h, rfl⟩
      cases h
      rfl
  | cons op rest ih =>
    obtain ⟨hop, hrest⟩ := List.forall_mem_cons.mp hsingle
    have hlater : ∀ first, c.applyInEra op = .ok first → c.era + 1 < u32Bound →
        (({ first with era := c.era + 1 } : Configuration).applyEach rest = .ok next ↔
          (∀ op ∈ rest, op.isNominate = false) ∧ c.era + 1 + rest.length < u32Bound ∧
            ∃ folded, ({ first with era := c.era + 1 } : Configuration).applyAllInEra rest =
              .ok folded ∧ next = { folded with era := c.era + 1 + rest.length }) :=
      fun first hfirst hroom => ih ((hc.applyInEra hfirst).withEra _) hroom hrest
    simp only [applyEach, applyAllInEra, bind_eq_ok, apply_single hop, List.length_cons,
      List.forall_mem_cons]
    constructor
    · rintro ⟨_, ⟨hnominate, -, hroom, first, hfirst, rfl⟩, h⟩
      obtain ⟨hriders, hlast, folded, hfolded, rfl⟩ := (hlater first hfirst hroom).mp h
      have hback := applyAllInEra_withEra ((hc.applyInEra hfirst).withEra _) hfolded first.era
      exact ⟨⟨hnominate, hriders⟩, by omega, _, ⟨first, hfirst, hback⟩, by
        simp only [Configuration.mk.injEq, and_true]; omega⟩
    · rintro ⟨⟨hnominate, hriders⟩, hlast, folded, ⟨first, hfirst, hfolded⟩, rfl⟩
      have hroom : c.era + 1 < u32Bound := by omega
      refine ⟨_, ⟨hnominate, hc.order_ne, hroom, first, hfirst, rfl⟩, ?_⟩
      have hforth := applyAllInEra_withEra (hc.applyInEra hfirst) hfolded (c.era + 1)
      exact (hlater first hfirst hroom).mpr ⟨hriders, by omega, _, hforth, by
        simp only [Configuration.mk.injEq, and_true]; omega⟩

/-! ### What a plan is -/

/-- **A greedy partition**: each batch is accepted, and none could have taken the first operation
of the next one. -/
def Greedy (c : Configuration) : List EraStep → Prop
  | [] => True
  | step :: rest =>
    (∀ slot, c.apply (.batch step.ops) slot = .ok step.config) ∧
      (∀ later ∈ rest.head?, ∀ op ∈ later.ops.head?, ∀ slot next,
        c.apply (.batch (step.ops ++ [op])) slot ≠ .ok next) ∧
      step.config.Greedy rest

/-- Where the steps of a plan lead. -/
def outcome (c : Configuration) : List EraStep → Configuration
  | [] => c
  | step :: rest => step.config.outcome rest

theorem outcome_append (c : Configuration) (steps : List EraStep) (step : EraStep) :
    c.outcome (steps ++ [step]) = step.config := by
  induction steps generalizing c with
  | nil => rfl
  | cons first rest ih => exact ih first.config

/-- The batches of a partition fold as their operations do. -/
theorem Greedy.fold {c : Configuration} (hc : c.Voting) {steps : List EraStep}
    (h : c.Greedy steps) :
    ∃ folded, c.applyAllInEra (steps.flatMap EraStep.ops) = .ok folded ∧
      c.outcome steps = { folded with era := c.era + steps.length } := by
  induction steps generalizing c with
  | nil => exact ⟨c, rfl, rfl⟩
  | cons step rest ih =>
    obtain ⟨haccepted, -, hrest⟩ := h
    obtain ⟨-, -, -, -, middle, hmiddle, -, hconfig⟩ := apply_batch.mp (haccepted Slot.none)
    have hvoting := (hc.applyAllInEra hmiddle).1
    obtain ⟨folded, hfolded, houtcome⟩ := ih (hconfig ▸ hvoting.withEra _) hrest
    have hback := applyAllInEra_withEra (hconfig ▸ hvoting.withEra _) hfolded middle.era
    rw [hconfig] at hback
    refine ⟨_, applyAllInEra_append.mpr ⟨middle, hmiddle, hback⟩, ?_⟩
    show step.config.outcome rest = _
    rw [houtcome, hconfig, List.length_cons]
    simp only [Configuration.mk.injEq, and_true]
    omega

/-- No batch of a partition is empty. -/
theorem Greedy.length_le {c : Configuration} {steps : List EraStep} (h : c.Greedy steps) :
    steps.length ≤ (steps.flatMap EraStep.ops).length := by
  induction steps generalizing c with
  | nil => exact Nat.le_refl 0
  | cons step rest ih =>
    have hne := List.length_pos_of_ne_nil (apply_batch.mp (h.1 Slot.none)).1
    have hrest := ih h.2.2
    rw [List.flatMap_cons, List.length_append, List.length_cons]
    omega

end Configuration

/-! ### The planner at work -/

/-- The steps with the batch being filled closed. -/
def Batching.close (state : Batching) : List EraStep :=
  if state.taken.isEmpty then state.steps
  else state.steps ++ [{ ops := state.taken, config := state.config }]

namespace Configuration

theorem close_of_ne {state : Batching} (h : state.taken ≠ []) :
    state.close = state.steps ++ [{ ops := state.taken, config := state.config }] := by
  rw [Batching.close, if_neg (by simpa using h)]

/-- Where the planner starts. -/
def opening (c : Configuration) : Batching :=
  { steps := [], batchStart := c, taken := [], config := c }

theorem plan_eq_ok {c : Configuration} {ops : List SystemOperation} {steps : List EraStep} :
    c.plan ops = .ok steps ↔
      ∃ state, ops.foldlM takeOp c.opening = .ok state ∧ steps = state.close := by
  rw [plan, bind_eq_ok]
  refine exists_congr fun state => and_congr_right fun _ => ?_
  rw [Batching.close]
  split
  · exact ⟨fun h => (pure_eq_ok.mp h).symm, fun h => pure_eq_ok.mpr h.symm⟩
  · exact ⟨fun h => (pure_eq_ok.mp h).symm, fun h => pure_eq_ok.mpr h.symm⟩

/-- One operation is taken into the batch, or else into a fresh one. -/
theorem takeOp_eq_ok {state state' : Batching} {op : SystemOperation}
    (hsingle : op.isSingle = true) :
    takeOp state op = .ok state' ↔
      (∃ next, state.batchStart.apply (.batch (state.taken ++ [op])) Slot.none = .ok next ∧
        state' = { state with taken := state.taken ++ [op], config := next }) ∨
      ((∀ next, state.batchStart.apply (.batch (state.taken ++ [op])) Slot.none ≠ .ok next) ∧
        state.taken ≠ [] ∧ ∃ next, state.config.apply (.batch [op]) Slot.none = .ok next ∧
          state' =
            { steps := state.steps ++ [{ ops := state.taken, config := state.config }]
              batchStart := state.config, taken := [op], config := next }) := by
  have hvoid : op = .void → False := fun h => by
    rw [h] at hsingle
    cases hsingle
  have hinit : ∀ order, op = .init order → False := fun order h => by
    rw [h] at hsingle
    cases hsingle
  rw [takeOp.eq_3 state op hvoid hinit]
  cases hextended : state.batchStart.apply (.batch (state.taken ++ [op])) Slot.none with
  | ok next =>
    constructor
    · intro h
      exact .inl ⟨next, rfl, (Except.ok.inj h).symm⟩
    · rintro (⟨next, h, rfl⟩ | ⟨hrefused, -⟩)
      · cases h
        rfl
      · exact absurd rfl (hrefused next)
  | error error =>
    have hrefused : ∀ next : Configuration, Except.error error ≠ .ok next := fun _ h => by cases h
    dsimp only
    split
    · rename_i hempty
      constructor
      · intro h
        cases h
      · rintro (⟨next, h, -⟩ | ⟨-, hne, -⟩)
        · cases h
        · exact absurd (by simpa using hempty) hne
    · rename_i hne
      constructor
      · intro h
        split at h
        · rename_i next hnext
          exact .inr ⟨hrefused, by simpa using hne, next, hnext, (Except.ok.inj h).symm⟩
        · cases h
      · rintro (⟨next, h, -⟩ | ⟨-, -, next, hnext, rfl⟩)
        · cases h
        · rw [hnext]

/-- **What the planner makes of the rest of the list**: the batch it is filling grows by some
front of it, and a greedy partition of the remainder follows. -/
theorem foldlM_takeOp {state state' : Batching} {ops : List SystemOperation}
    (hne : state.taken ≠ [])
    (hbatch : state.batchStart.apply (.batch state.taken) Slot.none = .ok state.config)
    (hsingle : ∀ op ∈ ops, op.isSingle = true) (h : ops.foldlM takeOp state = .ok state') :
    state'.taken ≠ [] ∧ ∃ front config tail,
      state'.close = state.steps ++ { ops := state.taken ++ front, config := config } :: tail ∧
        state.batchStart.Greedy ({ ops := state.taken ++ front, config := config } :: tail) ∧
        front ++ tail.flatMap EraStep.ops = ops := by
  induction ops generalizing state with
  | nil =>
    obtain rfl := pure_eq_ok.mp h
    refine ⟨hne, [], state.config, [], ?_, ?_, rfl⟩
    · rw [close_of_ne hne, List.append_nil]
    · rw [List.append_nil]
      exact ⟨fun _ => hbatch, fun _ hlater => (nomatch hlater), trivial⟩
  | cons op rest ih =>
    obtain ⟨hop, hrest⟩ := List.forall_mem_cons.mp hsingle
    rw [List.foldlM_cons, bind_eq_ok] at h
    obtain ⟨middle, hmiddle, h⟩ := h
    rcases (takeOp_eq_ok hop).mp hmiddle with
      ⟨next, hnext, rfl⟩ | ⟨hrefused, -, next, hnext, rfl⟩
    · -- the batch grows
      obtain ⟨hne', front, config, tail, hclose, hgreedy, hflat⟩ :=
        ih (List.append_ne_nil_of_right_ne_nil _ (List.cons_ne_nil _ _)) hnext hrest h
      rw [List.append_assoc] at hclose hgreedy
      exact ⟨hne', op :: front, config, tail, hclose, hgreedy, congrArg (op :: ·) hflat⟩
    · -- the batch is closed, and the operation opens the next one
      obtain ⟨hne', front, config, tail, hclose, hgreedy, hflat⟩ :=
        ih (List.cons_ne_nil _ _) hnext hrest h
      refine ⟨hne', [], state.config, { ops := op :: front, config := config } :: tail, ?_, ?_, ?_⟩
      · rw [hclose, List.append_assoc, List.append_nil]
        rfl
      · rw [List.append_nil]
        refine ⟨fun _ => hbatch, fun later hlater other hother slot next => ?_, hgreedy⟩
        cases hlater
        cases hother
        exact hrefused next
      · exact congrArg (op :: ·) hflat

/-- What the planner has made of a whole list. -/
theorem foldlM_opening {c : Configuration} {state : Batching} {ops : List SystemOperation}
    (hsingle : ∀ op ∈ ops, op.isSingle = true) (h : ops.foldlM takeOp c.opening = .ok state) :
    (ops = [] ∧ state = c.opening) ∨
      (state.taken ≠ [] ∧ c.Greedy state.close ∧ state.close.flatMap EraStep.ops = ops) := by
  cases ops with
  | nil => exact .inl ⟨rfl, (pure_eq_ok.mp h).symm⟩
  | cons op rest =>
    obtain ⟨hop, hrest⟩ := List.forall_mem_cons.mp hsingle
    rw [List.foldlM_cons, bind_eq_ok] at h
    obtain ⟨first, hfirst, h⟩ := h
    rcases (takeOp_eq_ok hop).mp hfirst with ⟨next, hnext, rfl⟩ | ⟨-, hne, -⟩
    · obtain ⟨hne, front, config, tail, hclose, hgreedy, hflat⟩ :=
        foldlM_takeOp (List.cons_ne_nil _ _) hnext hrest h
      refine .inr ⟨hne, hclose ▸ hgreedy, ?_⟩
      rw [hclose]
      exact congrArg (op :: ·) hflat
    · exact absurd rfl hne

theorem plan_greedy {c : Configuration} {ops : List SystemOperation} {steps : List EraStep}
    (hsingle : ∀ op ∈ ops, op.isSingle = true) (h : c.plan ops = .ok steps) :
    c.Greedy steps ∧ steps.flatMap EraStep.ops = ops := by
  obtain ⟨state, hstate, rfl⟩ := plan_eq_ok.mp h
  rcases foldlM_opening hsingle hstate with ⟨rfl, rfl⟩ | ⟨-, hgreedy, hflat⟩
  · exact ⟨trivial, rfl⟩
  · exact ⟨hgreedy, hflat⟩

/-- An operation that can open a batch is never refused. -/
theorem takeOp_ok {state : Batching} {op : SystemOperation} (hsingle : op.isSingle = true)
    (hstart : state.taken = [] → state.batchStart = state.config)
    (hfresh : ∃ next, state.config.apply (.batch [op]) Slot.none = .ok next) :
    ∃ state', takeOp state op = .ok state' := by
  simp only [takeOp_eq_ok hsingle]
  obtain ⟨next, hnext⟩ := hfresh
  by_cases hextended : ∃ next,
      state.batchStart.apply (.batch (state.taken ++ [op])) Slot.none = .ok next
  · obtain ⟨next', hnext'⟩ := hextended
    exact ⟨_, .inl ⟨next', hnext', rfl⟩⟩
  · have hne : state.taken ≠ [] := by
      intro hempty
      refine hextended ⟨next, ?_⟩
      rw [hempty, hstart hempty]
      exact hnext
    exact ⟨_, .inr ⟨fun next' h => hextended ⟨next', h⟩, hne, next, hnext, rfl⟩⟩

/-- **The planner accepts what folds inside an era**, while the eras last. -/
theorem plan_of_fold {c folded : Configuration} (hc : c.Voting) {ops : List SystemOperation}
    (hsingle : ∀ op ∈ ops, op.isSingle = true) (hroom : c.era + ops.length < u32Bound)
    (h : c.applyAllInEra ops = .ok folded) :
    ∃ state, ops.foldlM takeOp c.opening = .ok state := by
  induction ops using List.reverseRecOn generalizing folded with
  | nil => exact ⟨_, rfl⟩
  | append_singleton front op ih =>
    have hfront : ∀ other ∈ front, other.isSingle = true := fun other hmem =>
      hsingle other (List.mem_append_left _ hmem)
    have hop : op.isSingle = true := hsingle op (List.mem_append_right _ List.mem_cons_self)
    rw [List.length_append, List.length_singleton] at hroom
    obtain ⟨middle, hmiddle, hlast⟩ := applyAllInEra_append.mp h
    rw [applyAllInEra_singleton] at hlast
    obtain ⟨state, hstate⟩ := ih hfront (by omega) hmiddle
    rw [List.foldlM_append, hstate]
    -- the planner stands where the in-era fold of the front stands, in a later era
    have hwhere : (state.taken = [] → state.batchStart = state.config) ∧
        ∃ era, era ≤ c.era + front.length ∧ state.config = { middle with era := era } := by
      rcases foldlM_opening hfront hstate with ⟨rfl, rfl⟩ | ⟨hne, hgreedy, hflat⟩
      · cases hmiddle
        exact ⟨fun _ => rfl, c.era, Nat.le_refl _, rfl⟩
      · obtain ⟨folded', hfolded', houtcome⟩ := hgreedy.fold hc
        have hlength := hgreedy.length_le
        rw [hflat] at hfolded' hlength
        obtain rfl := Except.ok.inj (hmiddle.symm.trans hfolded')
        rw [close_of_ne hne, outcome_append] at houtcome
        exact ⟨fun hempty => absurd hempty hne, _, Nat.add_le_add_left hlength _, by
          rw [← close_of_ne hne] at houtcome; exact houtcome⟩
    obtain ⟨hstart, era, hera, hconfig⟩ := hwhere
    have hvoting := (hc.applyAllInEra hmiddle).1.withEra era
    obtain ⟨state', hstate'⟩ := takeOp_ok hop hstart ⟨_, by
      rw [hconfig]
      exact (apply_batch_one hvoting.nodup hop).mpr ⟨hvoting.order_ne, by
        show era + 1 < u32Bound
        omega, _, applyInEra_withEra (hc.applyAllInEra hmiddle).1 hlast era, rfl⟩⟩
    exact ⟨state', bind_eq_ok.mpr ⟨state, rfl, bind_eq_ok.mpr ⟨state', hstate', rfl⟩⟩⟩

/-- An empty configuration plans nothing. -/
theorem plan_of_empty {c : Configuration} (hempty : c.order = []) {ops : List SystemOperation}
    {steps : List EraStep} (hsingle : ∀ op ∈ ops, op.isSingle = true)
    (h : c.plan ops = .ok steps) : ops = [] := by
  obtain ⟨hgreedy, hflat⟩ := plan_greedy hsingle h
  cases steps with
  | nil => exact hflat.symm
  | cons step rest => exact absurd hempty (apply_batch.mp (hgreedy.1 Slot.none)).2.2.1

/-- **The planner against the one-at-a-time fold.** While the eras last, the planner accepts a list
exactly when its operations are accepted in turn; the fold of an era each refuses besides only
riders and what runs out of eras. A plan is a greedy partition of the list, and leads to the
membership the one-at-a-time fold leads to. -/
theorem plan_faithful {c : Configuration} (hc : c.order = [] ∨ c.Voting) (hera : c.era < u32Bound)
    {ops : List SystemOperation} (hsingle : ∀ op ∈ ops, op.isSingle = true) :
    (c.order ≠ [] → c.era + ops.length < u32Bound →
      ((∃ steps, c.plan ops = .ok steps) ↔ ∃ folded, c.applyAllInEra ops = .ok folded)) ∧
    ((∃ next, c.applyEach ops = .ok next) ↔
      (∃ steps, c.plan ops = .ok steps) ∧ (∀ op ∈ ops, op.isNominate = false) ∧
        c.era + ops.length < u32Bound) ∧
    ∀ steps, c.plan ops = .ok steps →
      steps.flatMap EraStep.ops = ops ∧ c.Greedy steps ∧
        (∃ folded, c.applyAllInEra ops = .ok folded ∧ (c.outcome steps).order = folded.order) ∧
        ∀ next, c.applyEach ops = .ok next → (c.outcome steps).order = next.order := by
  rcases hc with hempty | hc
  · -- nothing but the empty list is accepted, either way
    have hnil : ∀ steps, c.plan ops = .ok steps → ops = [] := fun steps h =>
      plan_of_empty hempty hsingle h
    have heach : ∀ next, c.applyEach ops = .ok next → ops = [] := by
      intro next h
      cases ops with
      | nil => rfl
      | cons op rest =>
        obtain ⟨first, hfirst, -⟩ := bind_eq_ok.mp h
        exact absurd hempty ((apply_single (hsingle op List.mem_cons_self)).mp hfirst).2.1
    refine ⟨fun hne => absurd hempty hne, ⟨?_, ?_⟩, fun steps h => ?_⟩
    · rintro ⟨next, h⟩
      obtain rfl := heach next h
      exact ⟨⟨[], rfl⟩, fun _ hmem => (nomatch hmem), hera⟩
    · rintro ⟨⟨steps, h⟩, -, -⟩
      obtain rfl := hnil steps h
      exact ⟨c, rfl⟩
    · obtain rfl := hnil steps h
      cases h
      exact ⟨rfl, trivial, ⟨c, rfl, rfl⟩, fun next hnext => by cases hnext; rfl⟩
  · have hfold : ∀ steps, c.plan ops = .ok steps → ∃ folded, c.applyAllInEra ops = .ok folded ∧
        (c.outcome steps).order = folded.order := by
      intro steps h
      obtain ⟨hgreedy, hflat⟩ := plan_greedy hsingle h
      obtain ⟨folded, hfolded, houtcome⟩ := hgreedy.fold hc
      exact ⟨folded, hflat ▸ hfolded, by rw [houtcome]⟩
    have hplan : c.era + ops.length < u32Bound → (∃ folded, c.applyAllInEra ops = .ok folded) →
        ∃ steps, c.plan ops = .ok steps := by
      rintro hroom ⟨folded, hfolded⟩
      obtain ⟨state, hstate⟩ := plan_of_fold hc hsingle hroom hfolded
      exact ⟨_, plan_eq_ok.mpr ⟨state, hstate, rfl⟩⟩
    refine ⟨fun _ hroom => ⟨?_, hplan hroom⟩, ⟨?_, ?_⟩, fun steps h => ?_⟩
    · rintro ⟨steps, h⟩
      obtain ⟨folded, hfolded, -⟩ := hfold steps h
      exact ⟨folded, hfolded⟩
    · rintro ⟨next, h⟩
      obtain ⟨hriders, hroom, folded, hfolded, -⟩ := (applyEach_eq_ok hc hera hsingle).mp h
      exact ⟨hplan hroom ⟨folded, hfolded⟩, hriders, hroom⟩
    · rintro ⟨⟨steps, h⟩, hriders, hroom⟩
      obtain ⟨folded, hfolded, -⟩ := hfold steps h
      exact ⟨_, (applyEach_eq_ok hc hera hsingle).mpr ⟨hriders, hroom, folded, hfolded, rfl⟩⟩
    · obtain ⟨hgreedy, hflat⟩ := plan_greedy hsingle h
      obtain ⟨folded, hfolded, horder⟩ := hfold steps h
      refine ⟨hflat, hgreedy, ⟨folded, hfolded, horder⟩, fun next hnext => ?_⟩
      obtain ⟨-, -, folded', hfolded', rfl⟩ := (applyEach_eq_ok hc hera hsingle).mp hnext
      obtain rfl := Except.ok.inj (hfolded.symm.trans hfolded')
      exact horder

/-- A pair of voters in era one takes two joins, a promotion and a rider. -/
theorem plan_faithful_pair :
    ∃ steps, ({ era := 1, order := [⟨1, 1⟩, ⟨2, 1⟩] } : Configuration).plan
        [.join 3 2, .increment 3, .increment 1, .nominate 0 1] = .ok steps ∧
      (({ era := 1, order := [⟨1, 1⟩, ⟨2, 1⟩] } : Configuration).outcome steps).order =
        [⟨1, 2⟩, ⟨2, 1⟩, ⟨3, 1⟩] := by
  have hsingle : ∀ op ∈ ([.join 3 2, .increment 3, .increment 1, .nominate 0 1] :
      List SystemOperation), op.isSingle = true := by decide
  have hpair : ({ era := 1, order := [⟨1, 1⟩, ⟨2, 1⟩] } : Configuration).Voting :=
    ⟨by decide, by decide⟩
  have h := plan_faithful (.inr hpair) (by decide) hsingle
  obtain ⟨steps, hsteps⟩ := (h.1 (by decide) (by decide)).mpr ⟨_, rfl⟩
  obtain ⟨-, -, ⟨folded, hfolded, horder⟩, -⟩ := h.2.2 steps hsteps
  exact ⟨steps, hsteps, by rw [horder]; cases hfolded; rfl⟩

/-- Two joins fit the last era as one batch and not as two; a nomination rides in a batch and
stands alone nowhere. -/
theorem plan_accepts_more :
    let last : Configuration := { era := u32Bound - 2, order := [⟨1, 1⟩] }
    (∃ steps, last.plan [.join 2 1, .join 3 2] = .ok steps) ∧
      last.applyEach [.join 2 1, .join 3 2] = .error .eraExhausted ∧
      (∃ steps, ({ era := 1, order := [⟨1, 1⟩] } : Configuration).plan [.nominate 0 1] =
        .ok steps) ∧
      ({ era := 1, order := [⟨1, 1⟩] } : Configuration).applyEach [.nominate 0 1] =
        .error .solitaryNomination :=
  ⟨⟨_, rfl⟩, rfl, ⟨_, rfl⟩, rfl⟩

end Configuration

end UvrrCore
