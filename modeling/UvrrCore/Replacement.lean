import UvrrCore.Planner

/-!
# Replacing one identity by another, in the abstract

The forced replacement of an identity goes by the weights alone: those of the survivors, and those
of the two identities. A `Profile` is these weights, a `Move` one operation of the replacement, and
`Profile.batch` the rule of the batch over them. The two schedules the source computes are
`generalBatches` and the greedy partition of `fiveMoves`; `schedule` picks one, as the eras allow.

`schedule_step` is the main result: from any profile but one, the schedule's first batch is
accepted and leads where the schedule, computed again, is what remained of it.
-/

namespace UvrrCore

/-- One operation of a replacement, the identities left out. -/
inductive Move where
  | decrement
  | increment
  | join
  | leave
  | double
  | halve
deriving DecidableEq, Repr

def Move.isScaling : Move → Bool
  | double | halve => true
  | _ => false

/-- **What a replacement goes by**: the weights of the survivors and of the two identities. -/
structure Profile where
  rest : List Nat
  old : Option Nat
  new : Option Nat
deriving DecidableEq, Repr

namespace Profile

def total (p : Profile) : Nat := p.rest.sum + p.old.getD 0 + p.new.getD 0

def size (p : Profile) : Nat := p.rest.length + p.old.toList.length + p.new.toList.length

/-- Every weight rescaled. -/
def scaled (p : Profile) (scale : Nat → Nat) : Profile where
  rest := p.rest.map scale
  old := p.old.map scale
  new := p.new.map scale

/-- The weights, each once. -/
def weights (p : Profile) : List Nat := p.rest ++ p.old.toList ++ p.new.toList

/-- One operation over the weights, where it is legal. -/
def move (p : Profile) : Move → Option Profile
  | .decrement =>
    match p.old with
    | some (weight + 1) => if p.total = 1 then none else some { p with old := some weight }
    | _ => none
  | .increment =>
    match p.new with
    | some weight =>
      if weight < maxWeight then some { p with new := some (weight + 1) } else none
    | none => none
  | .join =>
    match p.new with
    | none => if p.size < maxMembers then some { p with new := some 0 } else none
    | some _ => none
  | .leave =>
    match p.old with
    | some 0 => some { p with old := none }
    | _ => none
  | .double =>
    if ∀ weight ∈ p.weights, weight * 2 ≤ maxWeight then some (p.scaled (· * 2)) else none
  | .halve =>
    if ∀ weight ∈ p.weights, weight % 2 = 0 then some (p.scaled (· / 2)) else none

/-- The survivors stay, and so does the new identity. -/
theorem move_keeps {p q : Profile} {m : Move} (h : p.move m = some q) :
    q.rest.length = p.rest.length ∧ (q.new = none → p.new = none) := by
  cases m with
  | decrement =>
    rw [move] at h
    split at h
    · split at h
      · cases h
      · cases h
        exact ⟨rfl, id⟩
    · cases h
  | increment =>
    rw [move] at h
    split at h
    · split at h
      · cases h
        exact ⟨rfl, nofun⟩
      · cases h
    · cases h
  | join =>
    rw [move] at h
    split at h
    · split at h
      · cases h
        exact ⟨rfl, nofun⟩
      · cases h
    · cases h
  | leave =>
    rw [move] at h
    split at h
    · cases h
      exact ⟨rfl, id⟩
    · cases h
  | double =>
    obtain ⟨-, h⟩ := Option.ite_none_right_eq_some.mp h
    cases h
    exact ⟨List.length_map _, Option.map_eq_none_iff.mp⟩
  | halve =>
    obtain ⟨-, h⟩ := Option.ite_none_right_eq_some.mp h
    cases h
    exact ⟨List.length_map _, Option.map_eq_none_iff.mp⟩

def fold (p : Profile) : List Move → Option Profile
  | [] => some p
  | m :: rest => (p.move m).bind fun next => next.fold rest

/-- The weight the two identities exchange. -/
def moved (p q : Profile) : Nat :=
  (p.old.getD 0 - q.old.getD 0) + (q.old.getD 0 - p.old.getD 0) +
    ((p.new.getD 0 - q.new.getD 0) + (q.new.getD 0 - p.new.getD 0))

/-- A batch over the weights: a scaling alone, or one unit of weight. -/
def batch (p : Profile) (moves : List Move) : Option Profile :=
  if moves = [.double] ∨ moves = [.halve] then p.fold moves
  else if moves = [] ∨ moves.any Move.isScaling then none
  else (p.fold moves).filter fun q => decide (p.moved q ≤ 1)

theorem batch_eq_some {p q : Profile} {moves : List Move} :
    p.batch moves = some q ↔ moves ≠ [] ∧ p.fold moves = some q ∧
      (moves = [.double] ∨ moves = [.halve] ∨
        ((∀ m ∈ moves, m.isScaling = false) ∧ p.moved q ≤ 1)) := by
  have hany : moves.any Move.isScaling = true ↔ ¬∀ m ∈ moves, m.isScaling = false := by simp
  rw [batch]
  split
  · rename_i hsolitary
    have hne : moves ≠ [] := by rintro rfl; simp at hsolitary
    exact ⟨fun h => ⟨hne, h, hsolitary.imp id Or.inl⟩, fun h => h.2.1⟩
  · rename_i hcompany
    split
    · rename_i hrefused
      rw [hany] at hrefused
      refine ⟨fun h => (by cases h), ?_⟩
      rintro ⟨hne, -, hdouble | hhalve | ⟨hscaling, -⟩⟩
      · exact absurd (.inl hdouble) hcompany
      · exact absurd (.inr hhalve) hcompany
      · exact (hrefused.resolve_left hne hscaling).elim
    · rename_i hplain
      rw [hany, not_or, not_not] at hplain
      rw [Option.filter_eq_some_iff, decide_eq_true_iff]
      constructor
      · rintro ⟨hfold, hmoved⟩
        exact ⟨hplain.1, hfold, .inr (.inr ⟨hplain.2, hmoved⟩)⟩
      · rintro ⟨-, hfold, hdouble | hhalve | ⟨-, hmoved⟩⟩
        · exact absurd (.inl hdouble) hcompany
        · exact absurd (.inr hhalve) hcompany
        · exact ⟨hfold, hmoved⟩

/-! ### The greedy partition -/

/-- A partition being made: the batches closed, the one being filled, where it started and where
it leads. -/
structure Filling where
  closed : List (List Move)
  start : Profile
  taken : List Move
  here : Profile
deriving DecidableEq

def Filling.take (f : Filling) (m : Move) : Option Filling :=
  match f.start.batch (f.taken ++ [m]) with
  | some next => some { f with taken := f.taken ++ [m], here := next }
  | none =>
    if f.taken = [] then none
    else (f.here.batch [m]).map fun next =>
      { closed := f.closed ++ [f.taken], start := f.here, taken := [m], here := next }

theorem Filling.take_eq_some {f f' : Filling} {m : Move} :
    f.take m = some f' ↔
      (∃ next, f.start.batch (f.taken ++ [m]) = some next ∧
        f' = { f with taken := f.taken ++ [m], here := next }) ∨
      (f.start.batch (f.taken ++ [m]) = none ∧ f.taken ≠ [] ∧
        ∃ next, f.here.batch [m] = some next ∧
          f' = { closed := f.closed ++ [f.taken], start := f.here, taken := [m], here := next }) := by
  rw [take]
  cases f.start.batch (f.taken ++ [m]) with
  | some next => simp [eq_comm]
  | none =>
    by_cases hempty : f.taken = []
    · simp [hempty]
    · simp [hempty, eq_comm]

def Filling.batches (f : Filling) : List (List Move) :=
  if f.taken = [] then f.closed else f.closed ++ [f.taken]

theorem Filling.length_batches {f : Filling} (h : f.taken ≠ []) :
    f.batches.length = f.closed.length + 1 := by
  rw [batches, if_neg h, List.length_append, List.length_singleton]

/-- No batch is given back. -/
theorem Filling.length_take {f f' : Filling} {m : Move} (h : f.take m = some f') :
    f.batches.length ≤ f'.batches.length := by
  have hgrown : f.taken ++ [m] ≠ [] := List.append_ne_nil_of_right_ne_nil _ (List.cons_ne_nil _ _)
  have hle : f.batches.length ≤ f.closed.length + 1 := by
    rw [batches]
    split
    · exact Nat.le_succ _
    · rw [List.length_append, List.length_singleton]
  rcases take_eq_some.mp h with ⟨next, -, rfl⟩ | ⟨-, hne, next, -, rfl⟩
  · exact Nat.le_trans hle
      (length_batches (f := ⟨f.closed, f.start, f.taken ++ [m], next⟩) hgrown).ge
  · refine Nat.le_trans ?_
      (length_batches (f := ⟨f.closed ++ [f.taken], f.here, [m], next⟩) (List.cons_ne_nil _ _)).ge
    rw [length_batches hne, List.length_append, List.length_singleton]
    exact Nat.le_succ _

theorem Filling.length_run {f f' : Filling} {moves : List Move}
    (h : moves.foldlM take f = some f') : f.batches.length ≤ f'.batches.length := by
  induction moves generalizing f with
  | nil =>
    cases h
    exact Nat.le_refl _
  | cons m rest ih =>
    obtain ⟨middle, hmiddle, h⟩ := Option.bind_eq_some_iff.mp h
    exact Nat.le_trans (length_take hmiddle) (ih h)

/-- The greedy partition of a list of moves. -/
def greedy (p : Profile) (moves : List Move) : Option (List (List Move)) :=
  (moves.foldlM Filling.take { closed := [], start := p, taken := [], here := p }).map
    Filling.batches

/-! ### The two schedules -/

/-- The moves of the weighted replacement in a cluster of five. -/
def fiveMoves (p : Profile) : Option (List Move) :=
  if p.rest.length ≠ 4 then none
  else
    let doubling := p.rest.all (· == 1) && p.old == some 1 && p.new.isNone
    if !doubling && !(p.rest.all (· == 2)) then none
    else
      let scale := if doubling then [Move.double] else []
      let old := if doubling then some 2 else p.old
      let join := if p.new.isNone then [Move.join] else []
      let new := p.new.getD 0
      let promote := if new = 0 then [Move.increment] else []
      let new := if new = 0 then 1 else new
      let depart :=
        match old with
        | none => []
        | some weight => List.replicate weight Move.decrement ++ [.leave]
      let second := if new = 1 then [Move.increment] else []
      some (scale ++ join ++ promote ++ depart ++ second ++ [.halve])

/-- The batches of the weighted replacement. -/
def fiveBatches (p : Profile) : Option (List (List Move)) := p.fiveMoves.bind p.greedy

/-- The batches of the general replacement. -/
def generalBatches (p : Profile) : List (List Move) :=
  match p.old with
  | some weight =>
    let lighten := List.replicate (weight - 1) [Move.decrement]
    let crossing :=
      if 1 ≤ weight then [Move.decrement :: if p.new.isNone then [.join] else []] else []
    let newNow := if 1 ≤ weight ∧ p.new.isNone then some 0 else p.new
    let finish :=
      match newNow with
      | none => [[Move.join, .leave], [.increment]]
      | some 0 => [[.increment, .leave]]
      | some (_ + 1) => [[.leave]]
    lighten ++ crossing ++ finish
  | none =>
    match p.new with
    | none => [[.join], [.increment]]
    | some 0 => [[.increment]]
    | some (_ + 1) => []

/-- The schedule with so many eras left: the weighted one where it applies and fits. -/
def schedule (p : Profile) (eras : Nat) : List (List Move) :=
  match p.fiveBatches with
  | some batches => if batches.length ≤ eras then batches else p.generalBatches
  | none => p.generalBatches

/-- The eras the general replacement takes. -/
def erasNeeded : Option Nat → Option Nat → Nat
  | some (weight + 1), _ => weight + 2
  | some 0, none => 2
  | some 0, some _ => 1
  | none, none => 2
  | none, some 0 => 1
  | none, some (_ + 1) => 0

theorem length_generalBatches (p : Profile) :
    p.generalBatches.length = erasNeeded p.old p.new := by
  obtain ⟨rest, old, new⟩ := p
  rcases old with - | - | weight <;> rcases new with - | - | weight' <;>
    simp [generalBatches, erasNeeded] 

/-! ### One step of a schedule -/

/-- The profiles a replacement meets: a voter besides the old identity, room for the new one, and
weights in the domain. -/
structure Proper (p : Profile) : Prop where
  voting : 0 < p.rest.sum + p.new.getD 0
  room : p.new = none → p.size < maxMembers
  old_le : ∀ weight ∈ p.old, weight ≤ maxWeight
  new_le : ∀ weight ∈ p.new, weight ≤ maxWeight

instance (p : Profile) : Decidable p.Proper :=
  decidable_of_iff (0 < p.rest.sum + p.new.getD 0 ∧ (p.new = none → p.size < maxMembers) ∧
    (∀ weight ∈ p.old, weight ≤ maxWeight) ∧ ∀ weight ∈ p.new, weight ≤ maxWeight)
    ⟨fun h => ⟨h.1, h.2.1, h.2.2.1, h.2.2.2⟩, fun h => ⟨h.1, h.2, h.3, h.4⟩⟩

/-- The join of a schedule is in its first batch, unless this one keeps the members as they are. -/
def JoinsFirst (batch : List Move) (later : List (List Move)) : Prop :=
  batch = [.decrement] ∨ batch = [.double] ∨ ∀ moves ∈ later, Move.join ∉ moves

instance (batch : List Move) (later : List (List Move)) : Decidable (JoinsFirst batch later) :=
  inferInstanceAs (Decidable (_ ∨ _ ∨ _))

theorem batch_of_fold {p q : Profile} {moves : List Move} (hne : moves ≠ [])
    (hscaling : moves.any Move.isScaling = false) (hfold : p.fold moves = some q)
    (hmoved : p.moved q ≤ 1) : p.batch moves = some q :=
  batch_eq_some.mpr ⟨hne, hfold, .inr (.inr ⟨by simpa using hscaling, hmoved⟩)⟩

/-- Taking weight from the old identity leaves the others theirs. -/
theorem move_decrement {p : Profile} (hvoting : 0 < p.rest.sum + p.new.getD 0) {weight : Nat}
    (hold : p.old = some (weight + 1)) :
    p.move .decrement = some { p with old := some weight } := by
  have htotal : p.total ≠ 1 := by
    rw [total, hold, Option.getD_some]
    omega
  rw [move, hold]
  exact if_neg htotal

theorem move_join {p : Profile} (hnew : p.new = none) (hroom : p.size < maxMembers) :
    p.move .join = some { p with new := some 0 } := by
  rw [move, hnew]
  exact if_pos hroom

/-- **One batch of the general replacement**: it is accepted, and the rest is the general
replacement of where it leads. -/
theorem general_step {p : Profile} (hp : p.Proper) {batch : List Move}
    {later : List (List Move)} (h : p.generalBatches = batch :: later) :
    ∃ q, p.batch batch = some q ∧ q.rest = p.rest ∧ q.generalBatches = later ∧ q.Proper ∧
      JoinsFirst batch later := by
  obtain ⟨rest, old, new⟩ := p
  obtain ⟨hvoting, hroom, hold, hnew⟩ := hp
  have hle : ∀ weight ≤ maxWeight, ∀ other ∈ some weight, other ≤ maxWeight := by
    rintro weight hweight other ⟨⟩
    exact hweight
  have hnone : ∀ other ∈ (none : Option Nat), other ≤ maxWeight := fun _ hmem => nomatch hmem
  have hdecrement : ∀ weight, Profile.move ⟨rest, some (weight + 1), new⟩ .decrement =
      some ⟨rest, some weight, new⟩ := fun weight =>
    move_decrement (p := ⟨rest, some (weight + 1), new⟩) hvoting rfl
  rcases old with - | - | weight
  · rcases new with - | - | weight'
    · have h : [[Move.join], [.increment]] = batch :: later := h
      cases h
      refine ⟨⟨rest, none, some 0⟩, batch_of_fold (List.cons_ne_nil _ _) rfl ?_ (Nat.zero_le _),
        rfl, rfl, ⟨hvoting, nofun, hnone, hle 0 (by decide)⟩, by decide⟩
      rw [fold, move_join rfl (hroom rfl)]
      rfl
    · have h : [[Move.increment]] = batch :: later := h
      cases h
      exact ⟨⟨rest, none, some 1⟩, rfl, rfl, rfl,
        ⟨Nat.succ_pos _, nofun, hnone, hle 1 (by decide)⟩, by decide⟩
    · cases h
  · rcases new with - | - | weight'
    · have h : [[Move.join, .leave], [.increment]] = batch :: later := h
      cases h
      refine ⟨⟨rest, none, some 0⟩, batch_of_fold (List.cons_ne_nil _ _) rfl ?_ (Nat.zero_le _),
        rfl, rfl, ⟨hvoting, nofun, hnone, hle 0 (by decide)⟩, by decide⟩
      rw [fold, move_join rfl (hroom rfl)]
      rfl
    · have h : [[Move.increment, .leave]] = batch :: later := h
      cases h
      exact ⟨⟨rest, none, some 1⟩, rfl, rfl, rfl,
        ⟨Nat.succ_pos _, nofun, hnone, hle 1 (by decide)⟩, by decide⟩
    · have h : [[Move.leave]] = batch :: later := h
      cases h
      exact ⟨⟨rest, none, some (weight' + 1)⟩, batch_of_fold (List.cons_ne_nil _ _) rfl rfl
        (by simp [moved]), rfl, rfl, ⟨hvoting, nofun, hnone, hnew⟩, by decide⟩
  · have hweight : weight + 1 ≤ maxWeight := hold _ rfl
    rcases weight with - | weight
    · rcases new with - | - | weight'
      · have h : [[Move.decrement, .join], [.increment, .leave]] = batch :: later := h
        cases h
        refine ⟨⟨rest, some 0, some 0⟩, batch_of_fold (List.cons_ne_nil _ _) rfl ?_
          (by simp [moved]), rfl, rfl, ⟨hvoting, nofun, hle 0 (by decide), hle 0 (by decide)⟩,
          by decide⟩
        have hsize : Profile.size ⟨rest, some 0, none⟩ < maxMembers := hroom rfl
        rw [fold, hdecrement, Option.bind_some, fold, move_join rfl hsize]
        rfl
      · have h : [[Move.decrement], [.increment, .leave]] = batch :: later := h
        cases h
        refine ⟨⟨rest, some 0, some 0⟩, batch_of_fold (List.cons_ne_nil _ _) rfl ?_
          (by simp [moved]), rfl, rfl, ⟨hvoting, nofun, hle 0 (by decide), hle 0 (by decide)⟩,
          by decide⟩
        rw [fold, hdecrement]
        rfl
      · have h : [[Move.decrement], [.leave]] = batch :: later := h
        cases h
        refine ⟨⟨rest, some 0, some (weight' + 1)⟩, batch_of_fold (List.cons_ne_nil _ _) rfl ?_
          (by simp [moved]), rfl, rfl, ⟨hvoting, nofun, hle 0 (by decide), hnew⟩, by decide⟩
        rw [fold, hdecrement]
        rfl
    · -- the old identity keeps a vote, and everything else is as it was
      obtain ⟨rfl, rfl⟩ : [Move.decrement] = batch ∧
          (⟨rest, some (weight + 1), new⟩ : Profile).generalBatches = later := by
        have hrow : (⟨rest, some (weight + 1 + 1), new⟩ : Profile).generalBatches =
            [.decrement] :: (⟨rest, some (weight + 1), new⟩ : Profile).generalBatches := by
          simp [generalBatches, List.replicate_succ]
        exact List.cons.inj (hrow.symm.trans h)
      refine ⟨⟨rest, some (weight + 1), new⟩, batch_of_fold (List.cons_ne_nil _ _) rfl ?_
        (by simp [moved]), rfl, rfl,
        ⟨hvoting, hroom, hle _ (Nat.le_of_succ_le hweight), hnew⟩, .inl rfl⟩
      rw [fold, hdecrement]
      rfl

/-- The weighted replacement is for four survivors of weight two, or of weight one before the
doubling. -/
theorem fiveMoves_rest {p : Profile} {moves : List Move} (h : p.fiveMoves = some moves) :
    p.rest = [2, 2, 2, 2] ∨ p = ⟨[1, 1, 1, 1], some 1, none⟩ := by
  obtain ⟨rest, old, new⟩ := p
  rw [fiveMoves] at h
  split at h
  · cases h
  · rename_i hlength
    have hall : ∀ weight, rest.all (· == weight) = true → rest = List.replicate 4 weight := by
      intro weight hweight
      exact List.eq_replicate_iff.mpr ⟨not_not.mp hlength, by simpa using hweight⟩
    dsimp only at h
    split at h
    · cases h
    · rename_i hpattern
      rw [Bool.and_eq_true, not_and_or] at hpattern
      rcases hpattern with hdoubling | htwos
      · rw [Bool.not_eq_true', Bool.not_eq_false, Bool.and_eq_true, Bool.and_eq_true, beq_iff_eq,
          Option.isNone_iff_eq_none] at hdoubling
        obtain ⟨⟨hones, rfl⟩, rfl⟩ := hdoubling
        rw [hall 1 hones]
        exact .inr rfl
      · rw [Bool.not_eq_true', Bool.not_eq_false] at htwos
        exact .inl (hall 2 htwos)

theorem fiveMoves_ne {p : Profile} {moves : List Move} (h : p.fiveMoves = some moves) :
    moves ≠ [] := by
  rw [fiveMoves] at h
  split at h
  · cases h
  · dsimp only at h
    split at h
    · cases h
    · obtain rfl := Option.some.inj h
      exact List.append_ne_nil_of_right_ne_nil _ (List.cons_ne_nil _ _)

/-- The profiles over some survivors. -/
def profilesOf (rest : List Nat) : List Profile :=
  [none, some 0, some 1, some 2].flatMap fun old =>
    [none, some 0, some 1, some 2].map fun new => ⟨rest, old, new⟩

theorem Proper.mem_profilesOf {p : Profile} (hp : p.Proper) {rest : List Nat}
    (hrest : p.rest = rest) : p ∈ profilesOf rest := by
  have hrow : ∀ own : Option Nat, (∀ weight ∈ own, weight ≤ maxWeight) →
      own ∈ [none, some 0, some 1, some 2] := by
    rintro (- | - | - | - | weight) hle
    · decide
    · decide
    · decide
    · decide
    · have hweight : weight + 3 ≤ 2 := hle _ rfl
      omega
  subst hrest
  exact List.mem_flatMap.mpr
    ⟨p.old, hrow p.old hp.old_le, List.mem_map.mpr ⟨p.new, hrow p.new hp.new_le, rfl⟩⟩

/-- The profiles of the weighted replacement. -/
def fiveProfiles : List Profile :=
  ⟨[1, 1, 1, 1], some 1, none⟩ :: profilesOf [2, 2, 2, 2]

theorem mem_fiveProfiles {p : Profile} (hp : p.Proper) {batches : List (List Move)}
    (h : p.fiveBatches = some batches) : p ∈ fiveProfiles := by
  obtain ⟨moves, hmoves, -⟩ := Option.bind_eq_some_iff.mp h
  rcases fiveMoves_rest hmoves with hrest | rfl
  · exact List.mem_cons_of_mem _ (hp.mem_profilesOf hrest)
  · exact List.mem_cons_self

/-- **One batch of the weighted replacement**: it is accepted, and the rest is the weighted
replacement of where it leads; or nothing remains, and nothing is left to do. -/
theorem five_step : ∀ p ∈ fiveProfiles, ∀ batches ∈ p.fiveBatches, batches ≠ [] ∧
    ∃ q ∈ p.batch (batches.headD []),
      (q.fiveBatches = some batches.tail ∨
        batches.tail = [] ∧ q.fiveBatches = none ∧ q.generalBatches = []) ∧
      erasNeeded p.old p.new ≤ batches.length ∧
      JoinsFirst (batches.headD []) batches.tail ∧ q.Proper := by
  decide

/-- One batch of the general replacement brings the weighted one no more than an era nearer. -/
theorem five_after_general : ∀ p ∈ profilesOf [2, 2, 2, 2],
    ∀ q ∈ p.batch (p.generalBatches.headD []), ∀ batches' ∈ q.fiveBatches,
      ∃ batches ∈ p.fiveBatches, batches.length ≤ batches'.length + 1 := by
  decide

/-- Over survivors of weight one, the general replacement enters the weighted one from a single
profile. -/
theorem ones_after_general : ∀ p ∈ profilesOf [1, 1, 1, 1],
    ∀ q ∈ p.batch (p.generalBatches.headD []), ∀ batches ∈ q.fiveBatches,
      p = ⟨[1, 1, 1, 1], some 2, none⟩ ∧ batches.length = 6 := by
  decide

theorem ones_avoid : ∀ p ∈ profilesOf [1, 1, 1, 1],
    p.batch (p.generalBatches.headD []) ≠ some ⟨[1, 1, 1, 1], some 2, none⟩ := by
  decide

/-- Where the general replacement strays into the weighted one: the old identity has a second
vote, the survivors one each, and the eras are enough for the longer way. -/
def Stray (p : Profile) (eras : Nat) : Prop := p = ⟨[1, 1, 1, 1], some 2, none⟩ ∧ 7 ≤ eras

/-- **One batch of a schedule**: it is accepted, and the schedule computed again where it leads is
what remained. -/
theorem schedule_step {p : Profile} {eras : Nat} (hp : p.Proper)
    (hneeded : erasNeeded p.old p.new ≤ eras) (hstray : ¬p.Stray eras) {batch : List Move}
    {later : List (List Move)} (h : p.schedule eras = batch :: later) :
    ∃ q, p.batch batch = some q ∧ 1 ≤ eras ∧ q.schedule (eras - 1) = later ∧ q.Proper ∧
      erasNeeded q.old q.new ≤ eras - 1 ∧ ¬q.Stray (eras - 1) ∧ JoinsFirst batch later := by
  by_cases hfive : ∃ batches, p.fiveBatches = some batches ∧ batches.length ≤ eras
  · obtain ⟨batches, hbatches, hfits⟩ := hfive
    rw [schedule, hbatches] at h
    obtain rfl : batches = batch :: later := (if_pos hfits).symm.trans h
    obtain ⟨-, q, hq, hafter, -, hjoins, hproper⟩ :=
      five_step p (mem_fiveProfiles hp hbatches) _ hbatches
    rw [List.length_cons] at hfits
    refine ⟨q, hq, by omega, ?_, hproper, ?_, ?_, hjoins⟩
    · rcases hafter with hlater | ⟨hnil, hnone, hdone⟩
      · rw [schedule, hlater]
        exact if_pos (by rw [List.tail_cons]; omega)
      · rw [schedule, hnone, hdone]
        exact hnil.symm
    · rcases hafter with hlater | ⟨-, -, hdone⟩
      · obtain ⟨-, _, -, -, hlength, -, -⟩ :=
          five_step q (mem_fiveProfiles hproper hlater) _ hlater
        rw [List.tail_cons] at hlength
        omega
      · rw [← length_generalBatches, hdone]
        exact Nat.zero_le _
    · rintro ⟨rfl, -⟩
      have hnone : (⟨[1, 1, 1, 1], some 2, none⟩ : Profile).fiveBatches = none := by decide
      rcases hafter with hlater | ⟨-, -, hdone⟩
      · rw [hnone] at hlater
        cases hlater
      · exact absurd hdone (by decide)
  · have hgeneral : p.generalBatches = batch :: later := by
      rw [schedule] at h
      split at h
      · rename_i batches hbatches
        rwa [if_neg fun hfits => hfive ⟨batches, hbatches, hfits⟩] at h
      · exact h
    obtain ⟨q, hq, hrest, hlater, hproper, hjoins⟩ := general_step hp hgeneral
    have hlength := length_generalBatches p
    have hlength' := length_generalBatches q
    rw [hgeneral, List.length_cons] at hlength
    rw [hlater] at hlength'
    have hhead : q ∈ p.batch (p.generalBatches.headD []) := by
      rw [hgeneral]
      exact hq
    have hones : p.rest = [1, 1, 1, 1] → ∀ batches ∈ q.fiveBatches,
        p = ⟨[1, 1, 1, 1], some 2, none⟩ ∧ batches.length = 6 := fun hones =>
      ones_after_general p (hp.mem_profilesOf hones) q hhead
    refine ⟨q, hq, by omega, ?_, hproper, by omega, ?_, hjoins⟩
    · rw [schedule]
      split
      · rename_i batches' hbatches'
        rw [if_neg ?_, hlater]
        intro hfits
        obtain ⟨moves, hmoves, -⟩ := Option.bind_eq_some_iff.mp hbatches'
        rcases fiveMoves_rest hmoves with htwos | rfl
        · obtain ⟨batches, hbatches, hnear⟩ := five_after_general p
            (hp.mem_profilesOf (hrest.symm.trans htwos)) q hhead _ hbatches'
          exact hfive ⟨batches, hbatches, by omega⟩
        · obtain ⟨heq, hsix⟩ := hones hrest.symm _ hbatches'
          exact hstray ⟨heq, by omega⟩
      · exact hlater
    · rintro ⟨rfl, -⟩
      exact ones_avoid p (hp.mem_profilesOf hrest.symm) hhead

/-- A schedule with nothing in it has nothing to do. -/
theorem schedule_eq_nil {p : Profile} {eras : Nat} (hp : p.Proper) (h : p.schedule eras = []) :
    p.old = none ∧ ∃ weight, p.new = some (weight + 1) := by
  have hgeneral : p.generalBatches = [] := by
    rw [schedule] at h
    split at h
    · rename_i batches hbatches
      split at h
      · exact absurd h (five_step p (mem_fiveProfiles hp hbatches) _ hbatches).1
      · exact h
    · exact h
  have hlength := length_generalBatches p
  rw [hgeneral] at hlength
  obtain ⟨rest, old, new⟩ := p
  rcases old with - | - | weight
  · rcases new with - | - | weight'
    · cases hlength
    · cases hlength
    · exact ⟨rfl, weight', rfl⟩
  · rcases new with - | weight'
    · cases hlength
    · cases hlength
  · cases hlength

/-- With too few eras the schedule is the general one, and too long. -/
theorem schedule_of_short {p : Profile} {eras : Nat} (hp : p.Proper)
    (h : eras < erasNeeded p.old p.new) : eras < (p.schedule eras).length := by
  rw [schedule]
  split
  · rename_i batches hbatches
    obtain ⟨-, _, -, -, hlength, -, -⟩ := five_step p (mem_fiveProfiles hp hbatches) _ hbatches
    rw [if_neg (by omega), length_generalBatches]
    exact h
  · rw [length_generalBatches]
    exact h

/-- Where it strays, the schedule computed again is not what remained. -/
theorem Stray.departs {p : Profile} {eras : Nat} (h : p.Stray eras) :
    ∃ later q, p.schedule eras = [.decrement] :: later ∧ p.batch [.decrement] = some q ∧
      q.Proper ∧ (q.schedule (eras - 1)).length ≠ later.length := by
  obtain ⟨rfl, heras⟩ := h
  have hnone : (⟨[1, 1, 1, 1], some 2, none⟩ : Profile).fiveBatches = none := by decide
  have hsix : (⟨[1, 1, 1, 1], some 1, none⟩ : Profile).fiveBatches =
      some [[.double], [.join, .increment], [.decrement], [.decrement, .leave], [.increment],
        [.halve]] := by decide
  refine ⟨[[.decrement, .join], [.increment, .leave]], ⟨[1, 1, 1, 1], some 1, none⟩, ?_,
    by decide, by decide, ?_⟩
  · rw [schedule, hnone]
    rfl
  · rw [schedule, hsix]
    dsimp only
    rw [if_pos (by show 6 ≤ eras - 1; omega)]
    decide

end Profile

end UvrrCore
