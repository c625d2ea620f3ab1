import UvrrCore.Replica.Normal

/-!
# Reincarnation and gossip

A node that lost its life under one identity returns under the next one and announces itself.
The leader streams it what it missed (`missedRangePush`) and replaces the old identity by the
new one through a computed sequence of operations (`forcedSteps`), one era at a time.
-/

namespace UvrrCore

/-! ### Planning batches -/

/-- One era of a plan: its operations and the configuration they lead to. -/
structure EraStep where
  ops : List SystemOperation
  config : Configuration
deriving DecidableEq, Repr

/-- What the planner carries: the steps closed so far, the batch being filled, where it
started and where it leads. -/
structure Batching where
  steps : List EraStep
  batchStart : Configuration
  taken : List SystemOperation
  config : Configuration

namespace Configuration

/-- The next operation taken into the batch, or into a fresh one when the batch refuses it. -/
def takeOp (state : Batching) (op : SystemOperation) : Except ConfigError Batching :=
  match op with
  | .void | .init _ => .error .genesisNotPlannable
  | op =>
    match state.batchStart.apply (.batch (state.taken ++ [op])) Slot.none with
    | .ok next => .ok { state with taken := state.taken ++ [op], config := next }
    | .error error =>
      if state.taken.isEmpty then .error error
      else
        match state.config.apply (.batch [op]) Slot.none with
        | .ok next => .ok
            { steps := state.steps ++ [{ ops := state.taken, config := state.config }]
              batchStart := state.config, taken := [op], config := next }
        | .error error => .error error

/-- A list of operations partitioned greedily into batches that fold. -/
def plan (c : Configuration) (ops : List SystemOperation) : Except ConfigError (List EraStep) := do
  let state ← ops.foldlM takeOp { steps := [], batchStart := c, taken := [], config := c }
  if state.taken.isEmpty then return state.steps
  else return state.steps ++ [{ ops := state.taken, config := state.config }]

/-- The position of a node in the order. -/
def indexOf (c : Configuration) (node : Nat) : Option Nat :=
  c.order.findIdx? fun member => member.node == node

end Configuration

/-! ### The forced steps -/

/-- The replacement in a cluster of five, through doubled weights: `none` when the survivors
are not four of equal fitting weight. -/
def fiveNodeWeightedSteps (config : Configuration) (old new : Nat) :
    Option (List SystemOperation) :=
  let survivors := config.order.filter fun member => member.node != old && member.node != new
  let oldWeight := config.weightOf old
  let newWeight := config.weightOf new
  if survivors.length ≠ 4 then none
  else
    let doubling :=
      survivors.all (fun member => member.weight == 1) && oldWeight == some 1 && newWeight.isNone
    if !doubling && !(survivors.all fun member => member.weight == 2) then none
    else
      let scale := if doubling then [SystemOperation.double] else []
      let oldWeight := if doubling then some 2 else oldWeight
      let join :=
        if newWeight.isNone then
          [SystemOperation.join new ((config.indexOf old).getD config.len)]
        else []
      let newWeight := newWeight.getD 0
      let promote := if newWeight = 0 then [SystemOperation.increment new] else []
      let newWeight := if newWeight = 0 then 1 else newWeight
      let depart :=
        match oldWeight with
        | none => []
        | some weight => List.replicate weight (SystemOperation.decrement old) ++ [.leave old]
      let second := if newWeight = 1 then [SystemOperation.increment new] else []
      match config.plan (scale ++ join ++ promote ++ depart ++ second ++ [.halve]) with
      | .error _ => none
      | .ok steps => some (steps.map fun step => .batch step.ops)

/-- The operations that replace `old` by `new`, computed from the configuration as it is: a
recomputation after a committed step gives the remaining ones. -/
def forcedSteps (config : Configuration) (old new : Nat) : List SystemOperation :=
  if old = new then []
  else
    match fiveNodeWeightedSteps config old new with
    | some steps => steps
    | none =>
      let newWeight := config.weightOf new
      match config.weightOf old with
      | some weight =>
        let position := (config.indexOf old).getD config.len
        let lighten := List.replicate (weight - 1) (SystemOperation.batch [.decrement old])
        let crossing :=
          if 1 ≤ weight then
            [SystemOperation.batch
              (.decrement old :: if newWeight.isNone then [.join new position] else [])]
          else []
        let newWeightNow := if 1 ≤ weight ∧ newWeight.isNone then some 0 else newWeight
        let finish :=
          match newWeightNow with
          | none => [SystemOperation.batch [.join new position, .leave old], .batch [.increment new]]
          | some 0 => [.batch [.increment new, .leave old]]
          | some (_ + 1) => [.batch [.leave old]]
        lighten ++ crossing ++ finish
      | none =>
        match newWeight with
        | none => [.batch [.join new config.len], .batch [.increment new]]
        | some 0 => [.batch [.increment new]]
        | some (_ + 1) => []

namespace Replica

variable {J : Type} [Journal J]

/-- The committed entries above a frontier, pushed without being asked for. -/
def missedRangePush (r : Replica J) (view : Ballot) (recipient prepared : Nat) : Option Effect :=
  let committed := r.progress.committed
  match Slot.next prepared with
  | none => none
  | some start =>
    let entries := packChunk r.journal r.knobs.viewChangeBudget (committed + 1 - start) start 0
    match entries.getLast? with
    | none => none
    | some last =>
      some (.send recipient view.era
        { header := { view := view, slot := last.slot }
          body := .newState entries last.slot committed (decide (last.slot < committed)) })

def forcedStepPlannable (r : Replica J) (op : SystemOperation) : Bool := r.stepPlannable op

/-- The first `Prepare` among effects. -/
def establishingPrepare : List Effect → Option Message
  | [] => none
  | .send _ _ message :: rest =>
    match message.body with
    | .prepare _ _ => some message
    | _ => establishingPrepare rest
  | _ :: rest => establishingPrepare rest

/-- The announcement of a returned node, at the leader. -/
def planReincarnation (r : Replica J) (sender : Nat) (message : Message) (kind : InputKind) :
    Planned :=
  let current := r.progress.current
  match message.body with
  | .reincarnation old new _ prepared =>
    if !r.isLeader ∨ sender ≠ new ∨ old = new then
      r.dropPlan (.reincarnationRefused sender current) kind
    else
      match r.currentRecord with
      | none => .error (.progress .eraSlotDiscipline)
      | some record => do
        let view := message.header.view
        let machine : ForcedSequence := { old := old, new := new }
        let ack := (r.missedRangePush view new prepared).toList
        match (forcedSteps record.config old new).head? with
        | none =>
          let plan ← r.dropPlan .none kind
          return { plan.withReincarnation .clear with effects := plan.effects ++ ack }
        | some first =>
          if r.forcedStepPlannable first then
            let plan ← r.planReconfigure first none
            let copy :=
              ((establishingPrepare plan.effects).map fun establishing =>
                Effect.send new view.era establishing).toList
            return { plan.withReincarnation (.set machine) with
              effects := ack ++ plan.effects ++ copy }
          else
            let plan ← r.dropPlan .none kind
            return { plan.withReincarnation (.set machine) with effects := plan.effects ++ ack }
  | _ => r.dropPlan (.reincarnationRefused sender current) kind

/-- A gossip request: the leader answers with the missed range and a fresh commit. -/
def planGossipRequest (r : Replica J) (sender : Nat) (message : Message) (kind : InputKind) :
    Planned :=
  match message.body with
  | .gossipRequest prepared _ =>
    if !r.isLeader then r.dropPlan .none kind
    else do
      let plan ← r.dropPlan .none kind
      let current := r.progress.current
      let committed := r.progress.committed
      return { plan with
        effects := plan.effects ++
          (r.missedRangePush message.header.view sender prepared).toList ++
          [.send sender current.era
            { header := { view := current, slot := committed }, body := .commit committed }] }
  | _ => r.dropPlan .none kind

/-- The continuation of a forced sequence on a tick. -/
def planForcedContinuation (r : Replica J) : Option Planned :=
  match r.reincarnation with
  | none => none
  | some machine =>
    if !r.isLeader then none
    else
      let first :=
        match r.currentRecord with
        | none => none
        | some record => (forcedSteps record.config machine.old machine.new).head?
      match first with
      | none =>
        match r.emitPlan [] .tick with
        | .ok plan => some (.ok (plan.withReincarnation .clear))
        | .error _ => none
      | some op =>
        if r.forcedStepPlannable op then some do
          let plan ← r.planReconfigure op none
          return plan.withReincarnation (.set machine)
        else none

/-- The announcement of this node under its new identity, to every member it can name. -/
def planReincarnate (r : Replica J) (old : Nat) (kind : InputKind) : Planned :=
  match r.currentRecord with
  | none => .error (.progress .eraSlotDiscipline)
  | some record =>
    let current := r.progress.current
    have seated :=
      match record.config.weightOf r.own with
      | none => false
      | some weight => decide (1 ≤ weight)
    if old = r.own ∨ seated = true then r.dropPlan .none kind
    else
      let announcement : Message :=
        { header := { view := current, slot := Slot.none }
          body := .reincarnation old r.own r.progress.committed
            ((Journal.accepted r.journal).getD Slot.none) }
      if r.isLeader then r.planReincarnation r.own announcement kind
      else r.emitPlan (sendAll r.backups current.era announcement) kind

end Replica

end UvrrCore
