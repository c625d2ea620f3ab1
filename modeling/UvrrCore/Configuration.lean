import UvrrCore.Ids

/-!
# Configurations and the era table

A configuration is an era and an ordered list of weighted members. Configurations are made by
folding system operations: `Configuration.apply` is the fold of one establishing operation,
`Configuration.applyInEra` the legality and effect of one operation inside an era, and
`Configuration.applyBatch` the fold of a batch under its unit rule.

`EraTable` keeps the record of the current era and of the one before it. Only
`EraTable.extend` grows it, so each record is the fold of its establishing operation.

The refusals keep the source's names, one `ConfigError` constructor for each; one more stands
for the panic of an arm the source declares unreachable.
-/

namespace UvrrCore

/-- A computation that succeeds succeeded at its first step. -/
theorem bind_eq_ok {ε α β : Type} {x : Except ε α} {f : α → Except ε β} {b : β} :
    (x >>= f) = .ok b ↔ ∃ a, x = .ok a ∧ f a = .ok b := by
  constructor
  · intro h
    cases x with
    | error e => cases h
    | ok a => exact ⟨a, rfl, h⟩
  · rintro ⟨a, rfl, h⟩
    exact h

theorem toOption_eq_some {ε α : Type} {x : Except ε α} {a : α} (h : x.toOption = some a) :
    x = .ok a := by
  cases x with
  | error error => cases h
  | ok b => exact congrArg Except.ok (Option.some.inj h)

theorem pure_eq_ok {ε α : Type} {a b : α} : (pure a : Except ε α) = .ok b ↔ a = b :=
  ⟨Except.ok.inj, fun h => h ▸ rfl⟩

/-- The slot of the genesis `Void`. -/
abbrev voidSlot : Nat := 1

/-- The slot of the genesis `Init`. -/
abbrev initSlot : Nat := 2

abbrev maxMembers : Nat := 16

/-- The largest weight: the domain is 0 (learner), 1 and 2. -/
abbrev maxWeight : Nat := 2

structure Member where
  node : Nat
  weight : Nat
deriving DecidableEq, Repr

/-- A configuration: its era and its members in order. The void configuration has none. -/
structure Configuration where
  era : Nat
  order : List Member
deriving DecidableEq, Repr

/-! ### System operations -/

/-- The operations that build configurations. `nominate` is a rider: it moves the serving view
when it commits and leaves the configuration as it is. -/
inductive SystemOperation where
  | void
  | init (order : List Nat)
  | increment (node : Nat)
  | decrement (node : Nat)
  | double
  | halve
  | join (node position : Nat)
  | leave (node : Nat)
  | nominate (fromView offset : Nat)
  | batch (ops : List SystemOperation)
deriving Repr

namespace SystemOperation

mutual

/-- Equality of operations, one row for each constructor. -/
def decEq : (a b : SystemOperation) → Decidable (a = b)
  | void, b => match b with
    | void => isTrue rfl
    | init _ | increment _ | decrement _ | double | halve | join _ _ | leave _ | nominate _ _
    | batch _ => isFalse nofun
  | init o, b => match b with
    | init o' => decidable_of_iff (o = o') (by simp)
    | void | increment _ | decrement _ | double | halve | join _ _ | leave _ | nominate _ _
    | batch _ => isFalse nofun
  | increment n, b => match b with
    | increment n' => decidable_of_iff (n = n') (by simp)
    | void | init _ | decrement _ | double | halve | join _ _ | leave _ | nominate _ _
    | batch _ => isFalse nofun
  | decrement n, b => match b with
    | decrement n' => decidable_of_iff (n = n') (by simp)
    | void | init _ | increment _ | double | halve | join _ _ | leave _ | nominate _ _
    | batch _ => isFalse nofun
  | double, b => match b with
    | double => isTrue rfl
    | void | init _ | increment _ | decrement _ | halve | join _ _ | leave _ | nominate _ _
    | batch _ => isFalse nofun
  | halve, b => match b with
    | halve => isTrue rfl
    | void | init _ | increment _ | decrement _ | double | join _ _ | leave _ | nominate _ _
    | batch _ => isFalse nofun
  | join n p, b => match b with
    | join n' p' => decidable_of_iff (n = n' ∧ p = p') (by simp)
    | void | init _ | increment _ | decrement _ | double | halve | leave _ | nominate _ _
    | batch _ => isFalse nofun
  | leave n, b => match b with
    | leave n' => decidable_of_iff (n = n') (by simp)
    | void | init _ | increment _ | decrement _ | double | halve | join _ _ | nominate _ _
    | batch _ => isFalse nofun
  | nominate f o, b => match b with
    | nominate f' o' => decidable_of_iff (f = f' ∧ o = o') (by simp)
    | void | init _ | increment _ | decrement _ | double | halve | join _ _ | leave _
    | batch _ => isFalse nofun
  | batch xs, b => match b with
    | batch ys =>
      match decEqList xs ys with
      | isTrue h => isTrue (congrArg batch h)
      | isFalse h => isFalse fun e => h (batch.inj e)
    | void | init _ | increment _ | decrement _ | double | halve | join _ _ | leave _
    | nominate _ _ => isFalse nofun

def decEqList : (xs ys : List SystemOperation) → Decidable (xs = ys)
  | [], [] => isTrue rfl
  | [], _ :: _ => isFalse nofun
  | _ :: _, [] => isFalse nofun
  | x :: xs, y :: ys =>
    match decEq x y with
    | isFalse h => isFalse fun e => h (List.cons.inj e).1
    | isTrue h =>
      match decEqList xs ys with
      | isFalse h' => isFalse fun e => h' (List.cons.inj e).2
      | isTrue h' => isTrue (h ▸ h' ▸ rfl)

end

instance : DecidableEq SystemOperation := decEq

def isNominate : SystemOperation → Bool
  | nominate _ _ => true
  | _ => false

/-- The two operations that rescale every weight at once. -/
def isScaling : SystemOperation → Bool
  | double | halve => true
  | _ => false

end SystemOperation

/-- Why a fold refuses. -/
inductive ConfigError where
  | notInitialised
  | alreadyInitialised
  | wrongGenesisSlot (expected actual : Nat)
  | emptyInitOrder
  | duplicateNode (node : Nat)
  | notAMember (node : Nat)
  | weightCapExceeded (node cap : Nat)
  | weightUnderflow (node : Nat)
  | oddWeight (node : Nat)
  | nonZeroWeight (node : Nat)
  | positionOutOfRange (position len : Nat)
  | membershipCapExceeded (cap : Nat)
  | totalWouldBeZero
  | solitaryNomination
  | zeroNominationOffset
  | eraExhausted
  | emptyBatch
  | genesisNotPlannable
  | nestedBatch
  | scalingNotSolitary
  | batchMassMoved (moved : Nat)
  | snapshotVoidWithMembers
  | snapshotEmptyOrder (era : Nat)
  | snapshotZeroTotal (era : Nat)
  /-- No refusal: the fold panics on an operation it declares unreachable. -/
  | panicked
deriving DecidableEq, Repr

/-! ### Reading a configuration -/

namespace Configuration

def void : Configuration := { era := Era.initial, order := [] }

def len (c : Configuration) : Nat := c.order.length

def total (c : Configuration) : Nat := (c.order.map Member.weight).sum

def weightOf (c : Configuration) (node : Nat) : Option Nat :=
  (c.order.find? fun member => member.node == node).map Member.weight

/-- The members with a vote, in order. -/
def voters (c : Configuration) : List Nat :=
  (c.order.filter fun member => member.weight != 0).map Member.node

/-- The voter the view selects, round-robin over the order. -/
def primary (c : Configuration) (view : Nat) : Option Nat :=
  if c.voters.length = 0 then none else c.voters[view % c.voters.length]?

/-- The weight of a set of nodes; `none` for a duplicate or an unknown node. -/
def weightOfSet (c : Configuration) : List Nat → Option Nat
  | [] => some 0
  | node :: rest =>
    if rest.contains node then none
    else
      match c.weightOf node, c.weightOfSet rest with
      | some weight, some sum => some (weight + sum)
      | _, _ => none

/-! ### Folding operations -/

def successorEra (c : Configuration) : Except ConfigError Nat :=
  if c.order.isEmpty then .error .notInitialised
  else
    match Era.next c.era with
    | some era => .ok era
    | none => .error .eraExhausted

/-- The weight at the position of a member changed. -/
def setWeight (c : Configuration) (index weight : Nat) : Configuration :=
  { c with order := c.order.modify index fun member => { member with weight := weight } }

def doubled (member : Member) : Except ConfigError Member :=
  if member.weight * 2 ≤ maxWeight then .ok { member with weight := member.weight * 2 }
  else .error (.weightCapExceeded member.node maxWeight)

def halved (member : Member) : Except ConfigError Member :=
  if member.weight % 2 = 0 then .ok { member with weight := member.weight / 2 }
  else .error (.oddWeight member.node)

/-- One operation inside an era: its preconditions and its effect. The era itself stays; the
caller moves it. -/
def applyInEra (c : Configuration) : SystemOperation → Except ConfigError Configuration
  | .increment node =>
    match c.order.findIdx? fun member => member.node == node with
    | none => .error (.notAMember node)
    | some index =>
      let weight := (c.weightOf node).getD 0
      if maxWeight ≤ weight then .error (.weightCapExceeded node maxWeight)
      else .ok (c.setWeight index (weight + 1))
  | .decrement node =>
    match c.order.findIdx? fun member => member.node == node with
    | none => .error (.notAMember node)
    | some index =>
      let weight := (c.weightOf node).getD 0
      if weight = 0 then .error (.weightUnderflow node)
      else if c.total = 1 then .error .totalWouldBeZero
      else .ok (c.setWeight index (weight - 1))
  | .double => do
    let order ← c.order.mapM doubled
    return { c with order := order }
  | .halve => do
    let order ← c.order.mapM halved
    return { c with order := order }
  | .join node position =>
    if c.order.any fun member => member.node == node then .error (.duplicateNode node)
    else if maxMembers ≤ c.order.length then .error (.membershipCapExceeded maxMembers)
    else if c.len < position then .error (.positionOutOfRange position c.len)
    else .ok { c with order := c.order.insertIdx position { node := node, weight := 0 } }
  | .leave node =>
    match c.order.findIdx? fun member => member.node == node with
    | none => .error (.notAMember node)
    | some index =>
      if (c.weightOf node).getD 0 ≠ 0 then .error (.nonZeroWeight node)
      else .ok { c with order := c.order.eraseIdx index }
  | .nominate _ offset =>
    if offset = 0 then .error .zeroNominationOffset else .ok c
  -- `apply` and `applyBatch` route these elsewhere; the fold of a slab does not.
  | .void | .init _ | .batch _ => .error .panicked

/-- The folds of a slab's operations in order. -/
def applyAllInEra (c : Configuration) : List SystemOperation → Except ConfigError Configuration
  | [] => .ok c
  | op :: ops => do
    let next ← c.applyInEra op
    next.applyAllInEra ops

/-- The weight the fold moved, node by node over both memberships. -/
def massMoved (before after : Configuration) : Nat :=
  let nodes := ((before.order ++ after.order).map Member.node).dedup
  (nodes.map fun node =>
    let old := (before.weightOf node).getD 0
    let new := (after.weightOf node).getD 0
    (old - new) + (new - old)).sum

/-- The refusal the first genesis or nested operation of a batch earns. -/
def batchShape : List SystemOperation → Except ConfigError Unit
  | [] => .ok ()
  | .void :: _ | .init _ :: _ => .error .genesisNotPlannable
  | .batch _ :: _ => .error .nestedBatch
  | _ :: rest => batchShape rest

/-- A batch is the establishing operation of one era: its operations fold in order inside that
era, scalings only alone, and at most one unit of weight moves. -/
def applyBatch (c : Configuration) (ops : List SystemOperation) :
    Except ConfigError Configuration := do
  if ops.isEmpty then throw .emptyBatch
  batchShape ops
  let solitaryScaling := ops.length == 1 && ops.any SystemOperation.isScaling
  if !solitaryScaling && ops.any SystemOperation.isScaling then throw .scalingNotSolitary
  let era ← c.successorEra
  let current ← c.applyAllInEra ops
  let moved := c.massMoved current
  if !solitaryScaling && decide (1 < moved) then throw (.batchMassMoved moved)
  return { current with era := era }

/-- The first node of the list that occurs before itself. -/
def firstDuplicate : List Nat → List Nat → Option Nat
  | _, [] => none
  | seen, node :: rest =>
    if seen.contains node then some node else firstDuplicate (seen ++ [node]) rest

theorem firstDuplicate_none {seen order : List Nat} (h : firstDuplicate seen order = none) :
    order.Nodup ∧ ∀ node ∈ order, node ∉ seen := by
  induction order generalizing seen with
  | nil => exact ⟨List.nodup_nil, fun _ hmem => by cases hmem⟩
  | cons node rest ih =>
    rw [firstDuplicate] at h
    split at h
    · cases h
    · rename_i hnew
      obtain ⟨hnodup, hfresh⟩ := ih h
      refine ⟨List.nodup_cons.mpr ⟨fun hmem => ?_, hnodup⟩, fun other hmem => ?_⟩
      · exact hfresh node hmem (by simp)
      · rcases List.mem_cons.mp hmem with rfl | hmem
        · simpa using hnew
        · exact fun hin => hfresh other hmem (by simp [hin])

/-- **The fold of one establishing operation at its slot.** -/
def apply (c : Configuration) (op : SystemOperation) (slot : Nat) :
    Except ConfigError Configuration :=
  match op with
  | .void =>
    if !c.order.isEmpty then .error .alreadyInitialised
    else if slot ≠ voidSlot then .error (.wrongGenesisSlot voidSlot slot)
    else .ok void
  | .init order =>
    if !c.order.isEmpty then .error .alreadyInitialised
    else if slot ≠ initSlot then .error (.wrongGenesisSlot initSlot slot)
    else if order.isEmpty then .error .emptyInitOrder
    else if maxMembers < order.length then .error (.membershipCapExceeded maxMembers)
    else
      match firstDuplicate [] order with
      | some node => .error (.duplicateNode node)
      | none => .ok { era := 1, order := order.map fun node => { node := node, weight := 1 } }
  | .batch ops => c.applyBatch ops
  -- A nomination rides in an era that another operation establishes.
  | .nominate _ _ => .error .solitaryNomination
  | single => do
    let era ← c.successorEra
    let next ← c.applyInEra single
    return { next with era := era }

/-- The eras a slab's slots are stamped with, and the configuration the slab leads to. A rider
takes its carrier's era; a rider that leads the slab takes the head era. -/
def foldSlots (c : Configuration) (ops : List SystemOperation) :
    Except ConfigError (List Nat × Configuration) :=
  go [] c ops
where
  go (eras : List Nat) (current : Configuration) :
      List SystemOperation → Except ConfigError (List Nat × Configuration)
    | [] => .ok (eras, current)
    | op :: rest => do
      let stamp := if op.isNominate then eras.getLast?.getD current.era else current.era
      let next ← current.applyInEra op
      if op.isNominate then go (eras ++ [stamp]) next rest
      else
        match Era.next next.era with
        | none => throw .eraExhausted
        | some era => go (eras ++ [stamp]) { next with era := era } rest

end Configuration

/-! ### The era table -/

/-- The two quorums of a planned era switch. -/
structure Pivot where
  qI : List Nat
  qII : List Nat
deriving DecidableEq, Repr

/-- What is known of one era: its configuration, and the operation and slot that
established it. -/
structure EraRecord where
  era : Nat
  config : Configuration
  total : Nat
  establishedBy : Nat
  establishingOperation : SystemOperation
  pivot : Option Pivot
deriving DecidableEq, Repr

/-- **The era table**, oldest record first. `current` is the newest record; the source's table
is never empty, which the pair of a last record and its predecessors carries. -/
structure EraTable where
  earlier : List EraRecord
  current : EraRecord
deriving DecidableEq, Repr

namespace EraTable

def genesis : EraTable where
  earlier := []
  current :=
    { era := Era.initial, config := Configuration.void, total := 0, establishedBy := Slot.none,
      establishingOperation := .void, pivot := none }

def records (table : EraTable) : List EraRecord := table.earlier ++ [table.current]

/-- The newest record of an era. -/
def record (table : EraTable) (era : Nat) : Option EraRecord :=
  table.records.reverse.find? fun record => record.era == era

/-- The pivot put on the newest record of an era. -/
def withTransitionPivot (table : EraTable) (era : Nat) (pivot : Pivot) : Option EraTable :=
  if table.current.era = era then
    some { table with current := { table.current with pivot := some pivot } }
  else
    match table.earlier.reverse.findIdx? fun record => record.era == era with
    | none => none
    | some index =>
      some { table with
        earlier := (table.earlier.reverse.modify index fun record =>
          { record with pivot := some pivot }).reverse }

/-- The table after one more establishing operation, with the records older than the era
before the new one evicted from the front. -/
def extend (table : EraTable) (op : SystemOperation) (slot : Nat) :
    Except ConfigError EraTable := do
  let config ← table.current.config.apply op slot
  let cutoff := config.era - 1
  return {
    earlier := table.records.dropWhile fun record => decide (record.era < cutoff)
    current :=
      { era := config.era, config := config, total := config.total, establishedBy := slot,
        establishingOperation := op, pivot := none } }

/-- The era a slot belongs to, as far as the last two eras tell. -/
def eraOfSlot (table : EraTable) (slot : Nat) : Option Nat :=
  if table.current.establishedBy ≤ slot then some table.current.era
  else if table.current.era = 0 then none
  else
    match table.record (table.current.era - 1) with
    | none => none
    | some record => if record.establishedBy ≤ slot then some record.era else none

end EraTable

end UvrrCore
