import UvrrCore.Planner
import UvrrCore.Rotation

/-!
# The fold of a solved path

`Solve.fold` places the operations of a path into slots, an era each. Behind an operation that
rescales nothing it looks for the least view that gives the leader its turn back, and the offset
to it rides as a nomination. A turn comes round within as many views as there are voters, so the
search always finds it; only the sum of view and offset is unchecked, and `Places` promises
nothing about a step whose sum leaves the space of the views.
-/

namespace UvrrCore

namespace Solve

/-- One slot of a path: the era it establishes, the view at its commit, and its operations. -/
structure Step where
  slot : Nat
  era : Nat
  view : Nat
  ops : List SystemOperation
deriving DecidableEq, Repr

/-- The bare operation, or the batch when a rider rides. -/
def Step.payload (step : Step) : SystemOperation :=
  match step.ops with
  | [op] => op
  | ops => .batch ops

/-- The first offset of the search at which the leader is primary again. The sum is not
checked. -/
def riderOffset (base after : Configuration) (view leader : Nat) : Option Nat :=
  (List.range' 1 (2 * base.len + 2)).find? fun offset =>
    after.primary ((view + offset) % u32Bound) == some leader

/-- The operations of a step and the view it leaves. -/
def ridden (base after : Configuration) (view : Nat) (op : SystemOperation) :
    List SystemOperation × Nat :=
  if op.isScaling then ([op], view)
  else
    match base.primary view with
    | none => ([op], view)
    | some leader =>
      match riderOffset base after view leader with
      | none => ([op], view)
      | some offset => ([op, .nominate view offset], (view + offset) % u32Bound)

/-- **The path into slots**, from an era, a view and a slot. -/
def fold : List SystemOperation → Configuration → Nat × Nat × Nat → Option (List Step)
  | [], _, _ => some []
  | op :: path, base, (era, view, slot) => do
    let era ← Era.next era
    let slot ← Slot.next slot
    let after ← (base.apply op slot).toOption
    let (ops, view) := ridden base after view op
    let steps ← fold path after (era, view, slot)
    return { slot := slot, era := era, view := view, ops := ops } :: steps

/-- The offsets that give a leader its turn. -/
def turns (after : Configuration) (view leader : Nat) : Set Nat :=
  {offset | 0 < offset ∧ after.primary (view + offset) = some leader}

/-- **What a step of the fold is**: the operation between two configurations, and the rider that
keeps the leader. -/
structure Places (base : Configuration) (view : Nat) (op : SystemOperation)
    (after : Configuration) (step : Step) : Prop where
  legal : base.apply op step.slot = .ok after
  payload : base.apply step.payload step.slot = .ok after
  rides : op.isScaling = false → ∀ leader, base.primary view = some leader →
    leader ∈ after.voters → ∃ offset, IsLeast (turns after view leader) offset ∧
      (view + offset < u32Bound → step.ops = [op, .nominate view offset] ∧
        step.view = view + offset ∧ view < step.view ∧ after.primary step.view = some leader)
  rests : (op.isScaling = true ∨ ∀ leader, base.primary view = some leader →
    leader ∉ after.voters) → step.ops = [op] ∧ step.view = view
  scales : op.isScaling = true → after.primary step.view = base.primary view

/-- The steps along a path, each from where the one before it leads. -/
def Placed : Configuration → Nat → List SystemOperation → List Step → Prop
  | _, _, [], [] => True
  | base, view, op :: path, step :: steps =>
    ∃ after, Places base view op after step ∧ Placed after step.view path steps
  | _, _, _, _ => False

/-! ### Turns -/

theorem primary_mem {c : Configuration} {view node : Nat} (h : c.primary view = some node) :
    node ∈ c.voters := by
  rw [Configuration.primary] at h
  split at h
  · cases h
  · exact List.mem_of_getElem? h

/-- A voter's turn comes round within as many views as there are voters. -/
theorem turn_comes {c : Configuration} (hnodup : c.nodes.Nodup) {leader : Nat}
    (hvoter : leader ∈ c.voters) (view : Nat) :
    ∃ offset, 0 < offset ∧ offset ≤ c.voters.length ∧ c.primary (view + offset) = some leader := by
  obtain ⟨place, hplace⟩ := List.mem_iff_getElem?.mp hvoter
  have hlt : place < c.voters.length := (List.getElem?_eq_some_iff.mp hplace).1
  obtain ⟨habove, hnear⟩ := roundAfter_bounds view hlt
  refine ⟨roundAfter view place c.voters.length * c.voters.length + place - view, by omega,
    by omega, ?_⟩
  rw [Configuration.primary_eq_some_iff hnodup hplace, Nat.add_sub_cancel' habove.le,
    Nat.mul_add_mod_of_lt hlt]

/-- **The search finds the least turn**, where the sum stays among the views. -/
theorem riderOffset_eq {base after : Configuration} {view leader offset : Nat}
    (hnodup : after.nodes.Nodup) (hlen : after.voters.length ≤ 2 * base.len + 2)
    (hleast : IsLeast (turns after view leader) offset) (hroom : view + offset < u32Bound) :
    riderOffset base after view leader = some offset := by
  obtain ⟨⟨hpositive, hturn⟩, hbelow⟩ := hleast
  have hnear : offset ≤ 2 * base.len + 2 := by
    obtain ⟨other, hpos, hle, hother⟩ := turn_comes hnodup (primary_mem hturn) view
    exact Nat.le_trans (hbelow ⟨hpos, hother⟩) (Nat.le_trans hle hlen)
  refine List.find?_range'_eq_some.mpr ⟨?_, ?_, fun other hpos hlt => ?_⟩
  · rw [Nat.mod_eq_of_lt hroom, hturn]
    simp
  · rw [List.mem_range'_1]
    omega
  · rw [Nat.mod_eq_of_lt (by omega)]
    have hmiss : after.primary (view + other) ≠ some leader := fun heq =>
      Nat.not_le.mpr hlt (hbelow ⟨hpos, heq⟩)
    simpa using hmiss

/-- What the search finds is a positive offset, and the leader it looks for is a voter. -/
theorem riderOffset_some {base after : Configuration} {view leader offset : Nat}
    (h : riderOffset base after view leader = some offset) :
    offset ≠ 0 ∧ leader ∈ after.voters := by
  obtain ⟨hturn, hmem, -⟩ := List.find?_range'_eq_some.mp h
  rw [List.mem_range'_1] at hmem
  exact ⟨by omega, primary_mem (by simpa using hturn)⟩

/-! ### One step -/

/-- Rescaling leaves the votes where they are. -/
theorem voters_rescaled {c : Configuration} {scale : Nat → Nat}
    (h : ∀ member ∈ c.order, scale member.weight = 0 ↔ member.weight = 0) :
    (c.rescaled scale).voters = c.voters := by
  rw [Configuration.voters, Configuration.voters, Configuration.rescaled, List.filter_map,
    List.map_map]
  have hfilter : (c.order.filter ((fun member : Member => member.weight != 0) ∘
      fun member => { member with weight := scale member.weight })) =
      c.order.filter fun member => member.weight != 0 := by
    refine List.filter_congr fun member hmem => ?_
    simp only [Function.comp_apply, bne, beq_eq_decide, h member hmem]
  rw [hfilter]
  rfl

theorem primary_of_voters {c d : Configuration} (h : d.voters = c.voters) (view : Nat) :
    d.primary view = c.primary view := by
  rw [Configuration.primary, Configuration.primary, h]

/-- An accepted operation that is no batch, past the genesis. -/
theorem apply_plain {c next : Configuration} (hne : c.order ≠ []) {op : SystemOperation}
    (hplain : ∀ ops, op ≠ .batch ops) {slot : Nat} (h : c.apply op slot = .ok next) :
    op.isSingle = true ∧ op.isNominate = false ∧ c.era + 1 < u32Bound ∧
      ∃ folded, c.applyInEra op = .ok folded ∧ next = { folded with era := c.era + 1 } := by
  have hsingle : op.isSingle = true := by
    cases op with
    | void =>
      cases Configuration.apply_established h with
      | void hempty => exact absurd hempty hne
      | single hnominate hfolded => cases hfolded
    | init order =>
      cases Configuration.apply_established h with
      | init hempty => exact absurd hempty hne
      | single hnominate hfolded => cases hfolded
    | batch ops => exact absurd rfl (hplain ops)
    | _ => rfl
  obtain ⟨hnominate, -, hroom, hfolded⟩ := (Configuration.apply_single hsingle).mp h
  exact ⟨hsingle, hnominate, hroom, hfolded⟩

/-- The operation with its rider is accepted where the operation is. -/
theorem apply_ridden {c next : Configuration} (hc : c.Voting) {op : SystemOperation}
    (hplain : ∀ ops, op ≠ .batch ops) (hscaling : op.isScaling = false) {slot view offset : Nat}
    (hoffset : offset ≠ 0) (h : c.apply op slot = .ok next) :
    c.apply (.batch [op, .nominate view offset]) slot = .ok next := by
  obtain ⟨hsingle, -, hroom, folded, hfolded, rfl⟩ := apply_plain hc.order_ne hplain h
  have hrider : folded.applyInEra (.nominate view offset) = .ok folded := if_neg hoffset
  refine Configuration.apply_batch.mpr ⟨List.cons_ne_nil _ _, ?_, hc.order_ne, hroom, folded, ?_,
    .inr (.inr ⟨?_, ?_⟩), rfl⟩
  · exact List.forall_mem_cons.mpr ⟨hsingle, by simp [SystemOperation.isSingle]⟩
  · exact bind_eq_ok.mpr ⟨folded, hfolded, bind_eq_ok.mpr ⟨folded, hrider, rfl⟩⟩
  · exact List.forall_mem_cons.mpr ⟨hscaling, by simp [SystemOperation.isScaling]⟩
  · rw [Configuration.massMoved_eq]
    exact (Configuration.applyInEra_change hc.nodup hfolded).1.moved_le_one hscaling

/-- A rescaling leaves every turn where it was. -/
theorem primary_of_scaling {c folded : Configuration} (hc : c.Voting) {op : SystemOperation}
    (hscaling : op.isScaling = true) (h : c.applyInEra op = .ok folded) (view : Nat) :
    folded.primary view = c.primary view := by
  obtain ⟨hadmits, rfl⟩ := (Configuration.applyInEra_eq_ok hc.nodup).mp h
  refine primary_of_voters ?_ view
  cases op with
  | double =>
    refine voters_rescaled fun member _ => ?_
    show member.weight * 2 = 0 ↔ member.weight = 0
    omega
  | halve =>
    refine voters_rescaled fun member hmem => ?_
    have heven : member.weight % 2 = 0 := hadmits member hmem
    show member.weight / 2 = 0 ↔ member.weight = 0
    omega
  | _ => cases hscaling

/-- One operation lets at most one node in. -/
theorem voters_le {c folded : Configuration} (hc : c.Voting) {op : SystemOperation}
    (h : c.applyInEra op = .ok folded) : folded.voters.length ≤ 2 * c.len + 2 := by
  have hfilter : folded.voters.length ≤ folded.nodes.length := by
    rw [Configuration.voters, Configuration.nodes, List.length_map, List.length_map]
    exact List.length_filter_le _ _
  have hlen : c.nodes.length = c.len := List.length_map _
  have hnodes : folded.nodes.length ≤ c.nodes.length + 1 := by
    cases (Configuration.applyInEra_change hc.nodup h).1 with
    | reweigh hop hnodes => rw [hnodes]; exact Nat.le_succ _
    | double hnodes => rw [hnodes]; exact Nat.le_succ _
    | halve hnodes => rw [hnodes]; exact Nat.le_succ _
    | join hnew hroom hnodes hposition =>
      rw [hnodes, List.length_insertIdx_of_le_length hposition]
    | leave hmem hnodes =>
      rw [hnodes]
      exact Nat.le_trans List.length_erase_le (Nat.le_succ _)
    | nominate hsame => rw [hsame]; exact Nat.le_succ _
  omega

theorem exists_least_turn {c : Configuration} (hnodup : c.nodes.Nodup) {leader : Nat}
    (hvoter : leader ∈ c.voters) (view : Nat) : ∃ offset, IsLeast (turns c view leader) offset := by
  obtain ⟨offset, hpositive, -, hturn⟩ := turn_comes hnodup hvoter view
  have hsome : ∃ offset, 0 < offset ∧ c.primary (view + offset) = some leader :=
    ⟨offset, hpositive, hturn⟩
  exact ⟨Nat.find hsome, Nat.find_spec hsome, fun _ h => Nat.find_min' hsome h⟩

/-- **One step of the fold.** -/
theorem places_step {base after : Configuration} (hbase : base.order = [] ∨ base.Voting)
    {op : SystemOperation} (hplain : ∀ ops, op ≠ .batch ops) {slot : Nat} (era view : Nat)
    (h : base.apply op slot = .ok after) :
    Places base view op after
      { slot := slot, era := era, view := (ridden base after view op).2,
        ops := (ridden base after view op).1 } := by
  have hbare : ridden base after view op = ([op], view) →
      base.apply (Step.payload ⟨slot, era, (ridden base after view op).2,
        (ridden base after view op).1⟩) slot = .ok after := by
    intro hridden
    rw [hridden]
    exact h
  rcases hbase with hempty | hvoting
  · -- without members there is no leader, and only the genesis is accepted
    have hnone : base.primary view = none := by
      rw [Configuration.primary, Configuration.voters, hempty]
      rfl
    have hscaling : op.isScaling = false := by
      rcases Configuration.apply_of_empty hempty h with rfl | ⟨order, rfl⟩ <;> rfl
    have hridden : ridden base after view op = ([op], view) := by
      rw [ridden, hscaling, if_neg Bool.false_ne_true, hnone]
    refine ⟨h, hbare hridden, fun _ leader hleader => ?_, fun _ => by rw [hridden]; exact ⟨rfl, rfl⟩,
      fun hscales => ?_⟩
    · rw [hnone] at hleader
      cases hleader
    · rw [hscaling] at hscales
      cases hscales
  · obtain ⟨-, -, -, folded, hfolded, hafter⟩ := apply_plain hvoting.order_ne hplain h
    have hprimary : ∀ v, after.primary v = folded.primary v := fun v => by rw [hafter]; rfl
    by_cases hscaling : op.isScaling = true
    · have hridden : ridden base after view op = ([op], view) := if_pos hscaling
      refine ⟨h, hbare hridden, fun hfalse => ?_, fun _ => by rw [hridden]; exact ⟨rfl, rfl⟩,
        fun _ => ?_⟩
      · rw [hscaling] at hfalse
        cases hfalse
      · rw [hridden, hprimary]
        exact primary_of_scaling hvoting hscaling hfolded view
    · have hplainly : op.isScaling = false := Bool.eq_false_iff.mpr hscaling
      have hnodup : after.nodes.Nodup := hafter ▸ (hvoting.applyInEra hfolded).nodup
      have hlen : after.voters.length ≤ 2 * base.len + 2 := by
        have hle := voters_le hvoting hfolded
        rwa [hafter]
      have hscales : op.isScaling = true → after.primary (ridden base after view op).2 =
          base.primary view := fun h => absurd h hscaling
      cases hleader : base.primary view with
      | none =>
        have hridden : ridden base after view op = ([op], view) := by
          rw [ridden, if_neg hscaling, hleader]
        refine ⟨h, hbare hridden, fun _ leader hsome => ?_,
          fun _ => by rw [hridden]; exact ⟨rfl, rfl⟩, hscales⟩
        rw [hleader] at hsome
        cases hsome
      | some leader =>
        have hfound : ∀ offset, IsLeast (turns after view leader) offset →
            view + offset < u32Bound → riderOffset base after view leader = some offset :=
          fun offset => riderOffset_eq hnodup hlen
        cases hoffset : riderOffset base after view leader with
        | none =>
          have hridden : ridden base after view op = ([op], view) := by
            rw [ridden, if_neg hscaling, hleader]
            dsimp only
            rw [hoffset]
          refine ⟨h, hbare hridden, fun _ leader' hsome hvoter => ?_,
            fun _ => by rw [hridden]; exact ⟨rfl, rfl⟩, hscales⟩
          obtain rfl := Option.some.inj (hleader.symm.trans hsome)
          obtain ⟨offset, hleast⟩ := exists_least_turn hnodup hvoter view
          refine ⟨offset, hleast, fun hroom => ?_⟩
          rw [hfound offset hleast hroom] at hoffset
          cases hoffset
        | some offset =>
          obtain ⟨hne, hvoter⟩ := riderOffset_some hoffset
          have hridden : ridden base after view op =
              ([op, .nominate view offset], (view + offset) % u32Bound) := by
            rw [ridden, if_neg hscaling, hleader]
            dsimp only
            rw [hoffset]
          refine ⟨h, ?_, fun _ leader' hsome hvoter' => ?_, fun hlost => ?_, hscales⟩
          · rw [hridden]
            exact apply_ridden hvoting hplain hplainly hne h
          · obtain rfl := Option.some.inj (hleader.symm.trans hsome)
            obtain ⟨offset', hleast⟩ := exists_least_turn hnodup hvoter view
            refine ⟨offset', hleast, fun hroom => ?_⟩
            rw [hfound offset' hleast hroom] at hoffset
            obtain rfl := Option.some.inj hoffset
            rw [hridden]
            dsimp only
            rw [Nat.mod_eq_of_lt hroom]
            exact ⟨rfl, rfl, Nat.lt_add_of_pos_right hleast.1.1, hleast.1.2⟩
          · exact absurd hvoter (hlost.resolve_left hscaling leader hleader)

/-- What is accepted is void still, or has a vote. -/
theorem apply_voting {base after : Configuration} (hbase : base.order = [] ∨ base.Voting)
    {op : SystemOperation} (hplain : ∀ ops, op ≠ .batch ops) {slot : Nat}
    (h : base.apply op slot = .ok after) : after.order = [] ∨ after.Voting := by
  rcases hbase with hempty | hvoting
  · rcases Configuration.apply_of_void hempty h with rfl | ⟨-, hlive⟩
    · exact .inl rfl
    · exact .inr hlive.voting
  · obtain ⟨-, -, -, folded, hfolded, rfl⟩ := apply_plain hvoting.order_ne hplain h
    exact .inr ((hvoting.applyInEra hfolded).withEra _)

/-- **The fold keeps the leader.** Along a path of operations that are no batches, each payload
leads where its operation leads, and each step carries the least offset that gives a surviving
leader its turn, as long as the view it names exists. -/
theorem fold_places {path : List SystemOperation} {current : Configuration}
    (hcurrent : current.order = [] ∨ current.Voting)
    (hpath : ∀ op ∈ path, ∀ ops, op ≠ .batch ops) {era view slot : Nat} {steps : List Step}
    (h : fold path current (era, view, slot) = some steps) : Placed current view path steps := by
  induction path generalizing current era view slot steps with
  | nil =>
    cases h
    trivial
  | cons op path ih =>
    obtain ⟨hop, hpath⟩ := List.forall_mem_cons.mp hpath
    rw [fold] at h
    obtain ⟨era', -, h⟩ := Option.bind_eq_some_iff.mp h
    obtain ⟨slot', -, h⟩ := Option.bind_eq_some_iff.mp h
    obtain ⟨after, hafter, h⟩ := Option.bind_eq_some_iff.mp h
    have happly := toOption_eq_some hafter
    obtain ⟨later, hlater, h⟩ := Option.bind_eq_some_iff.mp h
    obtain rfl := Option.some.inj h
    exact ⟨after, places_step hcurrent hop era' view happly,
      ih (apply_voting hcurrent hop happly) hpath hlater⟩

/-- Two voters take in a third and raise it, and the leader of view zero is kept. -/
theorem fold_places_pair :
    ∃ steps, fold [.join 3 2, .increment 3, .increment 1]
        { era := 1, order := [⟨1, 1⟩, ⟨2, 1⟩] } (1, 0, 2) = some steps ∧
      Placed { era := 1, order := [⟨1, 1⟩, ⟨2, 1⟩] } 0 [.join 3 2, .increment 3, .increment 1]
        steps := by
  have hsteps : ∃ steps, fold [.join 3 2, .increment 3, .increment 1]
      { era := 1, order := [⟨1, 1⟩, ⟨2, 1⟩] } (1, 0, 2) = some steps := ⟨_, rfl⟩
  obtain ⟨steps, hsteps⟩ := hsteps
  exact ⟨steps, hsteps, fold_places (.inr ⟨by decide, by decide⟩) (by simp) hsteps⟩

/-- A rescaling leaves the view where it is. And a batch in the path would carry its rider in a
batch around it, which is refused. -/
theorem fold_rests_on_scaling :
    (∃ steps, fold [.double, .halve] { era := 1, order := [⟨1, 1⟩, ⟨2, 1⟩] } (1, 0, 2) =
        some steps ∧ steps.map Step.view = [0, 0]) ∧
      ∃ step, fold [.batch [.join 3 2]] { era := 1, order := [⟨1, 1⟩, ⟨2, 1⟩] } (1, 0, 2) =
          some [step] ∧
        ({ era := 1, order := [⟨1, 1⟩, ⟨2, 1⟩] } : Configuration).apply step.payload step.slot =
          .error .nestedBatch :=
  ⟨⟨_, rfl, rfl⟩, _, rfl, rfl⟩

end Solve

end UvrrCore
