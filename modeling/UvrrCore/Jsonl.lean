import UvrrCore.Lawful
import UvrrCore.Planner
import UvrrCore.Effects
import UvrrCore.TextLines

/-!
# Plan documents

A plan crosses the tool perimeter as text, one JSON object a line: a header that declares what the
plan starts from and what it reaches, then one line per step. `Plan.toJsonl` writes the document,
`Plan.fromJsonl` reads it and checks it, and `Plan.validateAgainst` checks the plan once more
against the configuration it is submitted to.

The printing and the parsing of one JSON line are the serializer's (`SerdeJson`). What the codec
relies on is that a printed line is parsed as what was printed.

## Main results

* `fromJsonl_eq_ok`: the texts that are accepted, and as which plan.
* `toJsonl_eq_ok`: the plans that are written, and as which text.
* `validateAgainst_eq_ok`: what an accepted plan is accepted on. The era plays a part, as every
  step takes one.
* `plan_documents`: the three of them together.
-/

namespace UvrrCore

open TextLines UvrrCore.Configuration

theorem mapError_eq_ok {ε ε' α : Type} {f : ε → ε'} {x : Except ε α} {a : α} :
    x.mapError f = .ok a ↔ x = .ok a := by
  cases x with
  | error error => exact ⟨fun h => (by cases h), fun h => (by cases h)⟩
  | ok b => simp [Except.mapError]

/-! ### Wire shapes -/

/-- One member as the schema names it. -/
structure JsonMember where
  id : Nat
  weight : Nat
deriving DecidableEq, Repr

/-- One operation as the schema names it, each field where the operation carries it. -/
structure JsonOp where
  op : String
  node : Option Nat
  position : Option Nat
  fromView : Option Nat
  offset : Option Nat
deriving DecidableEq, Repr

/-- The header line: what the plan starts from and what it reaches. -/
structure PlanLine where
  kind : String
  version : Nat
  initial : List JsonMember
  target : List JsonMember
deriving DecidableEq, Repr

/-- One step line: one era's batch. -/
structure StepLine where
  kind : String
  ops : List JsonOp
deriving DecidableEq, Repr

inductive PlanCodecError where
  | syntaxError (line : Nat) (detail : String)
  | shape (detail : String)
  | initial (error : ConfigError)
  | step (index : Nat) (refusal : ConfigError)
  | target (declared computed : List Member)
deriving DecidableEq, Repr

def memberOf (json : JsonMember) : Member := { node := json.id, weight := json.weight }

def jsonOf (member : Member) : JsonMember := { id := member.node, weight := member.weight }

/-- The operation's wire form; none for genesis and for batches. -/
def jsonOfOp : SystemOperation → Option JsonOp
  | .increment node => some ⟨"increment", some node, none, none, none⟩
  | .decrement node => some ⟨"decrement", some node, none, none, none⟩
  | .double => some ⟨"double", none, none, none, none⟩
  | .halve => some ⟨"halve", none, none, none, none⟩
  | .join node position => some ⟨"join", some node, some position, none, none⟩
  | .leave node => some ⟨"leave", some node, none, none, none⟩
  | .nominate fromView offset => some ⟨"nominate", none, none, some fromView, some offset⟩
  | .void | .init _ | .batch _ => none

/-- The operation's core form. -/
def opOfJson (json : JsonOp) : Except String SystemOperation :=
  match json.op with
  | "increment" =>
    match json.node, json.position with
    | some node, none => .ok (.increment node)
    | _, _ => .error "increment names exactly one node and no position"
  | "decrement" =>
    match json.node, json.position with
    | some node, none => .ok (.decrement node)
    | _, _ => .error "decrement names exactly one node and no position"
  | "double" =>
    if json.node.isNone && json.position.isNone then .ok .double
    else .error "unknown operation name"
  | "halve" =>
    if json.node.isNone && json.position.isNone then .ok .halve
    else .error "unknown operation name"
  | "join" =>
    match json.node, json.position with
    | some node, some position => .ok (.join node position)
    | _, _ => .error "join names exactly one node and one position"
  | "leave" =>
    match json.node, json.position with
    | some node, none => .ok (.leave node)
    | _, _ => .error "leave names exactly one node and no position"
  | "nominate" =>
    match json.fromView, json.offset with
    | some fromView, some offset => .ok (.nominate fromView offset)
    | _, _ => .error "nominate names exactly one view and one offset"
  | _ => .error "unknown operation name"

theorem opOfJson_jsonOfOp {op : SystemOperation} {json : JsonOp} (h : jsonOfOp op = some json) :
    opOfJson json = .ok op := by
  cases op with
  | void | init order | batch ops => cases h
  | increment node | decrement node | leave node | join node position | double | halve
  | nominate fromView offset =>
    cases h
    rfl

theorem map_memberOf_jsonOf (members : List Member) :
    (members.map jsonOf).map memberOf = members := by
  rw [List.map_map]
  exact List.map_id members

/-! ### The serializer -/

/-- The serializer at the two shapes of a line. It is code of its own, which may refuse; a line
with a number beyond 32 bits is no value of its types. -/
structure SerdeJson where
  printPlan : PlanLine → Except String Text
  printStep : StepLine → Except String Text
  parsePlan : Text → Except String PlanLine
  parseStep : Text → Except String StepLine

/-- What it prints is one line, and not an empty one. -/
structure Compact (text : Text) : Prop extends Plain text where
  visible : isBlank text = false

/-- **The serializer parses what it prints.** -/
structure SerdeJson.Faithful (serde : SerdeJson) : Prop where
  plan : ∀ line text, serde.printPlan line = .ok text →
    Compact text ∧ serde.parsePlan text = .ok line
  step : ∀ line text, serde.printStep line = .ok text →
    Compact text ∧ serde.parseStep text = .ok line

/-! ### The codec -/

def inflateMembers (order : List Member) : Except ConfigError Configuration :=
  Snapshot.inflate { era := 1, order := order }

/-- The printed step lines, from the line number of the first. -/
def printSteps (serde : SerdeJson) : (number : Nat) → List (List SystemOperation) →
    Except PlanCodecError (List Text)
  | _, [] => .ok []
  | number, ops :: rest => do
    let wire ← ops.mapM fun op =>
      match jsonOfOp op with
      | some json => .ok json
      | none => .error
          (.shape "the plan carries an operation the JSONL alphabet does not name")
    let line ← (serde.printStep { kind := "step", ops := wire }).mapError (.syntaxError number)
    let lines ← printSteps serde (number + 1) rest
    return line :: lines

/-- The plan's document. The target is computed, not stored. -/
def Plan.toJsonl (serde : SerdeJson) (plan : Plan) : Except PlanCodecError Text := do
  let initial ← (inflateMembers plan.initial).mapError .initial
  let target ← (foldSteps initial plan.steps).mapError fun refused => .step refused.1 refused.2
  let header : PlanLine :=
    { kind := "plan", version := 1
      initial := plan.initial.map jsonOf
      target := target.order.map jsonOf }
  let line ← (serde.printPlan header).mapError (.syntaxError 1)
  let lines ← printSteps serde 2 plan.steps
  return List.intercalate ['\n'] (line :: lines) ++ ['\n']

/-- What the header declares: the source and the target. -/
abbrev Declared := List Member × List Member

/-- The lines from one on, with what was read before it. -/
def readLines (serde : SerdeJson) : (number : Nat) → Option Declared →
    List (List SystemOperation) → List Text →
      Except PlanCodecError (Option Declared × List (List SystemOperation))
  | _, header, steps, [] => .ok (header, steps)
  | number, header, steps, line :: rest => do
    if isBlank line then readLines serde (number + 1) header steps rest
    else
      match header with
      | none =>
        let parsed ← (serde.parsePlan line).mapError (.syntaxError (number + 1))
        if parsed.kind ≠ "plan" then throw (.shape "the first line is not the plan header")
        if parsed.version ≠ 1 then throw (.shape "unsupported plan version")
        readLines serde (number + 1)
          (some (parsed.initial.map memberOf, parsed.target.map memberOf)) steps rest
      | some declared =>
        let parsed ← (serde.parseStep line).mapError (.syntaxError (number + 1))
        if parsed.kind ≠ "step" then throw (.shape "a step line is not a step")
        let ops ← (parsed.ops.mapM opOfJson).mapError (.syntaxError (number + 1))
        readLines serde (number + 1) (some declared) (steps ++ [ops]) rest

/-- **The perimeter**: the document is read, and the plan checked once. -/
def Plan.fromJsonl (serde : SerdeJson) (text : Text) : Except PlanCodecError Plan := do
  let (header, steps) ← readLines serde 0 none [] (lines text)
  match header with
  | none => throw (.shape "the plan header is missing")
  | some (initial, target) =>
    let config ← (inflateMembers initial).mapError .initial
    let computed ← (foldSteps config steps).mapError fun refused => .step refused.1 refused.2
    if computed.order ≠ target then throw (.target target computed.order)
    return { initial := initial, steps := steps }

/-! ### Legal folds -/

/-- **The steps fold legally, in order**, from one configuration to another. -/
def Configuration.FoldsTo : Configuration → List (List SystemOperation) → Configuration → Prop
  | source, [], target => target = source
  | source, ops :: rest, target =>
    ∃ next, source.apply (.batch ops) Slot.none = .ok next ∧ next.FoldsTo rest target

theorem foldSteps_eq_ok {source target : Configuration} {steps : List (List SystemOperation)} :
    foldSteps source steps = .ok target ↔ source.FoldsTo steps target := by
  have hgo : ∀ index, foldSteps.go source index steps = .ok target ↔
      source.FoldsTo steps target := by
    induction steps generalizing source with
    | nil =>
      intro index
      simp only [foldSteps.go, FoldsTo, Except.ok.injEq]
      exact eq_comm
    | cons ops rest ih =>
      intro index
      rw [foldSteps.go, FoldsTo]
      cases happly : source.apply (.batch ops) Slot.none with
      | error refusal => simp
      | ok next => simp [ih]
  exact hgo 0

/-- **Steps that fold in one era fold in every era with room for them**, to the same members. -/
theorem Configuration.FoldsTo.withEra {source target : Configuration}
    {steps : List (List SystemOperation)}
    (hsource : source.Voting) (h : source.FoldsTo steps target) (era : Nat) :
    (∃ reached, ({ source with era := era } : Configuration).FoldsTo steps reached) ↔
      steps = [] ∨ era + steps.length < u32Bound := by
  induction steps generalizing source era with
  | nil => exact ⟨fun _ => Or.inl rfl, fun _ => ⟨_, rfl⟩⟩
  | cons ops rest ih =>
    obtain ⟨next, hnext, hrest⟩ := h
    obtain ⟨hne, hsingle, hmembers, -, folded, hfolded, hunit, hnexteq⟩ := apply_batch.mp hnext
    have hvoting : folded.Voting := (hsource.applyAllInEra hfolded).1
    have hlater : ∀ start, (∃ reached,
        ({ folded with era := start } : Configuration).FoldsTo rest reached) ↔
          rest = [] ∨ start + rest.length < u32Bound := by
      intro start
      have hstep := ih (hnexteq ▸ hvoting.withEra _) hrest start
      rw [hnexteq] at hstep
      exact hstep
    have hinside := applyAllInEra_withEra hsource hfolded era
    have happly : ∀ reached, ({ source with era := era } : Configuration).apply (.batch ops)
        Slot.none = .ok reached ↔ era + 1 < u32Bound ∧ reached = { folded with era := era + 1 } := by
      intro reached
      rw [apply_batch]
      constructor
      · rintro ⟨-, -, -, hroom, other, hother, -, rfl⟩
        cases hinside.symm.trans hother
        exact ⟨hroom, rfl⟩
      · rintro ⟨hroom, rfl⟩
        exact ⟨hne, hsingle, hmembers, hroom, _, hinside, hunit, rfl⟩
    have hcount : (ops :: rest).length = rest.length + 1 := rfl
    constructor
    · rintro ⟨reached, second, hsecond, hreached⟩
      obtain ⟨hroom, rfl⟩ := (happly second).mp hsecond
      rcases (hlater (era + 1)).mp ⟨reached, hreached⟩ with rfl | hlong
      · exact Or.inr (by simpa using hroom)
      · exact Or.inr (by omega)
    · rintro (hnil | hlong)
      · cases hnil
      · have hroom : era + 1 < u32Bound := by omega
        obtain ⟨reached, hreached⟩ := (hlater (era + 1)).mpr (Or.inr (by omega))
        exact ⟨reached, _, (happly _).mpr ⟨hroom, rfl⟩, hreached⟩

/-! ### What an accepted plan is accepted on -/

theorem inflateMembers_eq_ok {order : List Member} {source : Configuration}
    (h : inflateMembers order = .ok source) :
    source = { era := 1, order := order } ∧ source.Voting := by
  obtain ⟨hchecked, hsource⟩ := Snapshot.inflate_eq_ok.mp h
  rcases hchecked with ⟨hera, -⟩ | ⟨-, hchecked⟩
  · cases hera
  · rw [hsource]
    exact ⟨rfl, hchecked.nodup, hchecked.positive⟩

/-- The two checks of the members, together. -/
theorem members_eq_iff {planned committed : List Member} :
    planned.map Member.node = committed.map Member.node ∧
      ((planned.zip committed).find? fun pair => pair.1.weight != pair.2.weight) = none ↔
        committed = planned := by
  constructor
  · rintro ⟨hnodes, hweights⟩
    induction planned generalizing committed with
    | nil => exact List.map_eq_nil_iff.mp hnodes.symm
    | cons member planned ih =>
      cases committed with
      | nil => cases hnodes
      | cons actual committed =>
        obtain ⟨hnode, hnodes⟩ := List.cons.inj hnodes
        rw [List.zip_cons_cons, List.find?_eq_none] at hweights
        obtain ⟨hweight, hweights⟩ := List.forall_mem_cons.mp hweights
        have hsame : actual = member := by
          have hweight : member.weight = actual.weight := by simpa using hweight
          cases member
          cases actual
          cases hnode
          cases hweight
          rfl
        rw [hsame, ih hnodes (List.find?_eq_none.mpr hweights)]
  · rintro rfl
    refine ⟨rfl, List.find?_eq_none.mpr ?_⟩
    intro pair hmem
    have hsame : pair.1 = pair.2 := by
      rw [List.zip, List.zipWith_self] at hmem
      obtain ⟨member, -, rfl⟩ := List.mem_map.mp hmem
      rfl
    simp [hsame]

/-- **When a submitted plan is accepted** that folds from its members: on exactly these members,
with as many eras left as it has steps. -/
theorem validateAgainst_eq_ok {plan : Plan} {source target : Configuration}
    (hsource : inflateMembers plan.initial = .ok source) (hfolds : source.FoldsTo plan.steps target)
    (current : Configuration) :
    plan.validateAgainst current = .ok () ↔
      current.order = plan.initial ∧ plan.steps.length ≤ current.erasLeft := by
  obtain ⟨hstart, hvoting⟩ := inflateMembers_eq_ok hsource
  have hroom : current.order = plan.initial →
      ((∃ reached, current.FoldsTo plan.steps reached) ↔
        plan.steps.length ≤ current.erasLeft) := by
    intro horder
    have hera := hfolds.withEra hvoting current.era
    rw [hstart, ← horder] at hera
    rw [hera, erasLeft, ← List.length_eq_zero_iff]
    omega
  unfold Plan.validateAgainst
  by_cases hnodes : plan.initial.map Member.node = current.order.map Member.node
  · rw [if_neg (not_not.mpr hnodes)]
    cases hfind : (plan.initial.zip current.order).find?
        fun pair => pair.1.weight != pair.2.weight with
    | some pair =>
      have hne : current.order ≠ plan.initial := by
        intro horder
        have := (members_eq_iff.mpr horder).2
        rw [hfind] at this
        cases this
      simp [hne]
    | none =>
      have horder := members_eq_iff.mp ⟨hnodes, hfind⟩
      rw [and_iff_right horder, ← hroom horder]
      cases hsteps : foldSteps current plan.steps with
      | error refused =>
        refine ⟨fun h => (by cases h), ?_⟩
        rintro ⟨reached, hreached⟩
        rw [foldSteps_eq_ok.mpr hreached] at hsteps
        cases hsteps
      | ok reached => exact ⟨fun _ => ⟨reached, foldSteps_eq_ok.mp hsteps⟩, fun _ => rfl⟩
  · rw [if_pos hnodes]
    refine ⟨fun h => (by cases h), ?_⟩
    rintro ⟨horder, -⟩
    exact absurd (by rw [horder]) hnodes

/-! ### Reading a document -/

/-- A line is read as a header with these declarations. -/
def HeaderReads (serde : SerdeJson) (line : Text) (declared : Declared) : Prop :=
  ∃ parsed, serde.parsePlan line = .ok parsed ∧ parsed.kind = "plan" ∧ parsed.version = 1 ∧
    declared = (parsed.initial.map memberOf, parsed.target.map memberOf)

/-- A line is read as a step of these operations. -/
def StepReads (serde : SerdeJson) (line : Text) (ops : List SystemOperation) : Prop :=
  ∃ parsed, serde.parseStep line = .ok parsed ∧ parsed.kind = "step" ∧
    parsed.ops.mapM opOfJson = .ok ops

/-- The lines that are not skipped. -/
def visible (text : List Text) : List Text := text.filter fun line => !isBlank line

theorem readLines_step {serde : SerdeJson} {number : Nat} {declared : Declared}
    {steps : List (List SystemOperation)} {text : List Text}
    {read : Option Declared × List (List SystemOperation)} :
    readLines serde number (some declared) steps text = .ok read ↔
      ∃ more, read = (some declared, steps ++ more) ∧
        List.Forall₂ (StepReads serde) (visible text) more := by
  induction text generalizing number steps with
  | nil =>
    simp only [readLines, visible, List.filter_nil, List.forall₂_nil_left_iff]
    constructor
    · intro h
      exact ⟨[], by rw [List.append_nil]; exact (Except.ok.inj h).symm, rfl⟩
    · rintro ⟨more, rfl, rfl⟩
      rw [List.append_nil]
  | cons line rest ih =>
    rw [readLines]
    by_cases hblank : isBlank line = true
    · rw [if_pos hblank, ih]
      simp [visible, hblank]
    · have hvisible : visible (line :: rest) = line :: visible rest := by
        simp [visible, hblank]
      rw [if_neg hblank, hvisible]
      simp only [bind_eq_ok, mapError_eq_ok, List.forall₂_cons_left_iff]
      constructor
      · rintro ⟨parsed, hparsed, h⟩
        by_cases hkind : parsed.kind = "step"
        · rw [if_neg (not_not.mpr hkind)] at h
          obtain ⟨ops, hops, hread⟩ := bind_eq_ok.mp h
          obtain ⟨later, rfl, hlater⟩ := ih.mp hread
          refine ⟨ops :: later, ?_, ops, later, ⟨parsed, hparsed, hkind, ?_⟩, hlater, rfl⟩
          · rw [List.append_assoc, List.singleton_append]
          · exact mapError_eq_ok.mp hops
        · rw [if_pos hkind] at h
          cases h
      · rintro ⟨more, rfl, ops, later, ⟨parsed, hparsed, hkind, hops⟩, hlater, rfl⟩
        refine ⟨parsed, hparsed, ?_⟩
        rw [if_neg (not_not.mpr hkind)]
        refine bind_eq_ok.mpr ⟨ops, mapError_eq_ok.mpr hops, ih.mpr ⟨later, ?_, hlater⟩⟩
        rw [List.append_assoc, List.singleton_append]

theorem readLines_eq_ok {serde : SerdeJson} {number : Nat} {text : List Text}
    {declared : Declared} {steps : List (List SystemOperation)} :
    readLines serde number none [] text = .ok (some declared, steps) ↔
      ∃ first rest, visible text = first :: rest ∧ HeaderReads serde first declared ∧
        List.Forall₂ (StepReads serde) rest steps := by
  induction text generalizing number with
  | nil => simp [readLines, visible]
  | cons line text ih =>
    rw [readLines]
    by_cases hblank : isBlank line = true
    · rw [if_pos hblank, ih]
      simp [visible, hblank]
    · have hvisible : visible (line :: text) = line :: visible text := by
        simp [visible, hblank]
      rw [if_neg hblank, hvisible]
      simp only [bind_eq_ok, mapError_eq_ok]
      constructor
      · rintro ⟨parsed, hparsed, h⟩
        by_cases hkind : parsed.kind = "plan"
        · by_cases hversion : parsed.version = 1
          · rw [if_neg (not_not.mpr hkind)] at h
            change (if parsed.version ≠ 1 then _ else _) = _ at h
            rw [if_neg (not_not.mpr hversion)] at h
            obtain ⟨more, hread, hmore⟩ := readLines_step.mp h
            cases hread
            exact ⟨line, visible text, rfl, ⟨parsed, hparsed, hkind, hversion, rfl⟩, hmore⟩
          · rw [if_neg (not_not.mpr hkind)] at h
            change (if parsed.version ≠ 1 then _ else _) = _ at h
            rw [if_pos hversion] at h
            cases h
        · rw [if_pos hkind] at h
          cases h
      · rintro ⟨first, rest, hlines, ⟨parsed, hparsed, hkind, hversion, rfl⟩, hmore⟩
        obtain ⟨rfl, rfl⟩ := List.cons.inj hlines
        refine ⟨parsed, hparsed, ?_⟩
        rw [if_neg (not_not.mpr hkind), if_neg (not_not.mpr hversion)]
        exact readLines_step.mpr ⟨steps, rfl, hmore⟩

/-- **Which texts are plans.** The lines that are not blank are a header and steps, and the steps
fold legally, in order, from the declared source to exactly the declared target. -/
theorem fromJsonl_eq_ok {serde : SerdeJson} {text : Text} {plan : Plan} :
    Plan.fromJsonl serde text = .ok plan ↔
      ∃ first rest declared, visible (lines text) = first :: rest ∧
        HeaderReads serde first (plan.initial, declared) ∧
        List.Forall₂ (StepReads serde) rest plan.steps ∧
        ∃ source target, inflateMembers plan.initial = .ok source ∧
          source.FoldsTo plan.steps target ∧ target.order = declared := by
  unfold Plan.fromJsonl
  simp only [bind_eq_ok, Prod.exists]
  constructor
  · rintro ⟨header, steps, hread, h⟩
    cases header with
    | none => cases h
    | some declared =>
      obtain ⟨initial, target⟩ := declared
      simp only [bind_eq_ok, mapError_eq_ok, foldSteps_eq_ok] at h
      obtain ⟨source, hsource, computed, hfolds, h⟩ := h
      by_cases htarget : computed.order = target
      · rw [if_neg (not_not.mpr htarget)] at h
        cases h
        obtain ⟨first, rest, hlines, hheader, hsteps⟩ := readLines_eq_ok.mp hread
        exact ⟨first, rest, target, hlines, hheader, hsteps, source, computed, hsource, hfolds,
          htarget⟩
      · rw [if_pos htarget] at h
        cases h
  · rintro ⟨first, rest, declared, hlines, hheader, hsteps, source, target, hsource, hfolds,
      htarget⟩
    refine ⟨some (plan.initial, declared), plan.steps,
      readLines_eq_ok.mpr ⟨first, rest, hlines, hheader, hsteps⟩, ?_⟩
    simp only [bind_eq_ok, mapError_eq_ok, foldSteps_eq_ok]
    refine ⟨source, hsource, target, hfolds, ?_⟩
    rw [if_neg (not_not.mpr htarget)]
    rfl

/-! ### Writing a document -/

/-- A step is printed as a line. -/
def StepPrints (serde : SerdeJson) (ops : List SystemOperation) (line : Text) : Prop :=
  ∃ wire, ops.map jsonOfOp = wire.map some ∧
    serde.printStep { kind := "step", ops := wire } = .ok line

theorem mapM_wire {ops : List SystemOperation} {wire : List JsonOp}
    {toWire : SystemOperation → Except PlanCodecError JsonOp}
    (hwire : ∀ op json, toWire op = .ok json → jsonOfOp op = some json)
    (h : ops.mapM toWire = .ok wire) : ops.map jsonOfOp = wire.map some := by
  induction ops generalizing wire with
  | nil =>
    rw [List.mapM_nil, pure_eq_ok] at h
    rw [← h]
    rfl
  | cons op ops ih =>
    rw [List.mapM_cons] at h
    obtain ⟨json, hjson, h⟩ := bind_eq_ok.mp h
    obtain ⟨rest, hrest, h⟩ := bind_eq_ok.mp h
    rw [← pure_eq_ok.mp h, List.map_cons, List.map_cons, hwire op json hjson, ih hrest]

theorem printSteps_eq_ok {serde : SerdeJson} {number : Nat}
    {steps : List (List SystemOperation)} {text : List Text}
    (h : printSteps serde number steps = .ok text) :
    List.Forall₂ (StepPrints serde) steps text := by
  induction steps generalizing number text with
  | nil =>
    cases h
    exact List.Forall₂.nil
  | cons ops rest ih =>
    rw [printSteps] at h
    obtain ⟨wire, hwire, h⟩ := bind_eq_ok.mp h
    obtain ⟨line, hline, h⟩ := bind_eq_ok.mp h
    obtain ⟨later, hlater, h⟩ := bind_eq_ok.mp h
    rw [← pure_eq_ok.mp h]
    refine List.Forall₂.cons ⟨wire, mapM_wire ?_ hwire, mapError_eq_ok.mp hline⟩ (ih hlater)
    intro op json hjson
    cases hop : jsonOfOp op with
    | none =>
      rw [hop] at hjson
      cases hjson
    | some other =>
      rw [hop] at hjson
      exact congrArg some (Except.ok.inj hjson)

/-- **Which plans are written, and how.** -/
theorem toJsonl_eq_ok {serde : SerdeJson} {plan : Plan} {text : Text}
    (h : plan.toJsonl serde = .ok text) :
    ∃ source target line rest, inflateMembers plan.initial = .ok source ∧
      source.FoldsTo plan.steps target ∧
      serde.printPlan { kind := "plan", version := 1, initial := plan.initial.map jsonOf
                        target := target.order.map jsonOf } = .ok line ∧
      List.Forall₂ (StepPrints serde) plan.steps rest ∧
      text = (line :: rest).flatMap (· ++ ['\n']) := by
  unfold Plan.toJsonl at h
  simp only [bind_eq_ok, mapError_eq_ok, foldSteps_eq_ok, pure_eq_ok] at h
  obtain ⟨source, hsource, target, hfolds, line, hline, rest, hrest, rfl⟩ := h
  exact ⟨source, target, line, rest, hsource, hfolds, hline, printSteps_eq_ok hrest,
    intercalate_append (List.cons_ne_nil line rest)⟩

theorem mapM_opOfJson {ops : List SystemOperation} {wire : List JsonOp}
    (h : ops.map jsonOfOp = wire.map some) : wire.mapM opOfJson = .ok ops := by
  induction ops generalizing wire with
  | nil =>
    rw [List.map_eq_nil_iff.mp h.symm]
    rfl
  | cons op ops ih =>
    cases wire with
    | nil => cases h
    | cons json wire =>
      obtain ⟨hop, hops⟩ := List.cons.inj h
      rw [List.mapM_cons, opOfJson_jsonOfOp hop, ih hops]
      rfl

/-- A printed step is read as it was. -/
theorem StepPrints.reads {serde : SerdeJson} (hserde : serde.Faithful)
    {ops : List SystemOperation} {line : Text} (h : StepPrints serde ops line) :
    Compact line ∧ StepReads serde line ops := by
  obtain ⟨wire, hwire, hprint⟩ := h
  obtain ⟨hcompact, hparse⟩ := hserde.step _ line hprint
  exact ⟨hcompact, _, hparse, rfl, mapM_opOfJson hwire⟩

theorem steps_read {serde : SerdeJson} (hserde : serde.Faithful)
    {steps : List (List SystemOperation)} {text : List Text}
    (h : List.Forall₂ (StepPrints serde) steps text) :
    (∀ line ∈ text, Compact line) ∧ List.Forall₂ (StepReads serde) text steps := by
  induction h with
  | nil => exact ⟨fun line hmem => absurd hmem List.not_mem_nil, List.Forall₂.nil⟩
  | cons hline hrest ih =>
    obtain ⟨hcompact, hreads⟩ := hline.reads hserde
    exact ⟨List.forall_mem_cons.mpr ⟨hcompact, ih.1⟩, List.Forall₂.cons hreads ih.2⟩

/-- **The round trip.** -/
theorem fromJsonl_toJsonl {serde : SerdeJson} (hserde : serde.Faithful) {plan : Plan}
    {text : Text} (h : plan.toJsonl serde = .ok text) :
    Plan.fromJsonl serde text = .ok plan := by
  obtain ⟨source, target, line, rest, hsource, hfolds, hprint, hsteps, rfl⟩ := toJsonl_eq_ok h
  obtain ⟨hcompact, hparse⟩ := hserde.plan _ line hprint
  obtain ⟨hcompacts, hreads⟩ := steps_read hserde hsteps
  have hall : ∀ other ∈ line :: rest, Compact other :=
    List.forall_mem_cons.mpr ⟨hcompact, hcompacts⟩
  have hlines : visible (lines ((line :: rest).flatMap (· ++ ['\n']))) = line :: rest := by
    rw [lines_flatMap fun other hmem => (hall other hmem).toPlain, visible]
    refine List.filter_eq_self.mpr ?_
    intro other hmem
    rw [(hall other hmem).visible]
    rfl
  refine fromJsonl_eq_ok.mpr ⟨line, rest, target.order, hlines, ?_, hreads, source, target,
    hsource, hfolds, rfl⟩
  refine ⟨_, hparse, rfl, rfl, ?_⟩
  rw [map_memberOf_jsonOf, map_memberOf_jsonOf]

/-! ### Documents -/

/-- **Plan documents round-trip and validate.** What is written of a plan is read as the plan, if
the serializer parses what it prints. A text that is accepted declares a source and a target in its
first line that is not blank and a step in each other one, and the steps fold legally, in order,
from the one to exactly the other. And an accepted plan is accepted on a configuration if and only
if that has the members of the declared source, in their order and with their weights, and an era
ahead of it for each step. -/
theorem plan_documents (serde : SerdeJson) :
    (serde.Faithful → ∀ (plan : Plan) (text : Text), plan.toJsonl serde = .ok text →
      Plan.fromJsonl serde text = .ok plan) ∧
    ∀ (text : Text) (plan : Plan), Plan.fromJsonl serde text = .ok plan →
      (∃ first rest declared, visible (lines text) = first :: rest ∧
        HeaderReads serde first (plan.initial, declared) ∧
        List.Forall₂ (StepReads serde) rest plan.steps ∧
        ∃ source target, inflateMembers plan.initial = .ok source ∧
          source.FoldsTo plan.steps target ∧ target.order = declared) ∧
      ∀ current : Configuration, plan.validateAgainst current = .ok () ↔
        current.order = plan.initial ∧ plan.steps.length ≤ current.erasLeft := by
  refine ⟨fun hserde plan text => fromJsonl_toJsonl hserde, ?_⟩
  intro text plan hread
  have haccepted := fromJsonl_eq_ok.mp hread
  refine ⟨haccepted, ?_⟩
  obtain ⟨first, rest, declared, -, -, -, source, target, hsource, hfolds, -⟩ := haccepted
  exact validateAgainst_eq_ok hsource hfolds

/-- A member of weight 1 that is incremented. -/
def samplePlan : Plan := { initial := [⟨1, 1⟩], steps := [[.increment 1]] }

def sampleHeader : PlanLine := ⟨"plan", 1, [⟨1, 1⟩], [⟨1, 2⟩]⟩

def sampleStep : StepLine := ⟨"step", [⟨"increment", some 1, none, none, none⟩]⟩

def sampleHeaderText : Text :=
  "\x7b\"kind\":\"plan\",\"version\":1,\"initial\":[\x7b\"id\":1,\"weight\":1\x7d],".toList ++
    "\"target\":[\x7b\"id\":1,\"weight\":2\x7d]\x7d".toList

def sampleStepText : Text :=
  "\x7b\"kind\":\"step\",\"ops\":[\x7b\"op\":\"increment\",\"node\":1\x7d]\x7d".toList

/-- The serializer on the two lines of a document. -/
def sampleSerde : SerdeJson where
  printPlan line :=
    if line = sampleHeader then .ok sampleHeaderText else .error "not a line of the document"
  printStep line :=
    if line = sampleStep then .ok sampleStepText else .error "not a line of the document"
  parsePlan text :=
    if text = sampleHeaderText then .ok sampleHeader else .error "not a line of the document"
  parseStep text :=
    if text = sampleStepText then .ok sampleStep else .error "not a line of the document"

theorem sampleSerde_faithful : sampleSerde.Faithful := by
  refine ⟨?_, ?_⟩
  · intro line text hprint
    simp only [sampleSerde] at hprint
    split at hprint
    · rename_i hline
      cases hprint
      rw [hline]
      exact ⟨⟨⟨by decide, by decide⟩, by decide⟩, by simp [sampleSerde]⟩
    · cases hprint
  · intro line text hprint
    simp only [sampleSerde] at hprint
    split at hprint
    · rename_i hline
      cases hprint
      rw [hline]
      exact ⟨⟨⟨by decide, by decide⟩, by decide⟩, by simp [sampleSerde]⟩
    · cases hprint

def sampleText : Text := sampleHeaderText ++ ['\n'] ++ sampleStepText ++ ['\n']

theorem sample_written : samplePlan.toJsonl sampleSerde = .ok sampleText := by
  have hinitial : inflateMembers samplePlan.initial = .ok { era := 1, order := [⟨1, 1⟩] } := by
    decide
  have hfolds : foldSteps { era := 1, order := [⟨1, 1⟩] } samplePlan.steps =
      .ok { era := 2, order := [⟨1, 2⟩] } := by
    decide
  have hheader : sampleSerde.printPlan sampleHeader = .ok sampleHeaderText := by
    simp [sampleSerde]
  have hsteps : printSteps sampleSerde 2 samplePlan.steps = .ok [sampleStepText] := rfl
  have htext : List.intercalate ['\n'] [sampleHeaderText, sampleStepText] ++ ['\n'] = sampleText := by
    simp [List.intercalate, sampleText]
  unfold Plan.toJsonl
  refine bind_eq_ok.mpr ⟨_, mapError_eq_ok.mpr hinitial, ?_⟩
  refine bind_eq_ok.mpr ⟨_, mapError_eq_ok.mpr hfolds, ?_⟩
  refine bind_eq_ok.mpr ⟨_, mapError_eq_ok.mpr hheader, ?_⟩
  refine bind_eq_ok.mpr ⟨_, hsteps, ?_⟩
  exact congrArg Except.ok htext

/-- Written and read again. -/
theorem plan_documents_sample : Plan.fromJsonl sampleSerde sampleText = .ok samplePlan :=
  (plan_documents sampleSerde).1 sampleSerde_faithful samplePlan sampleText sample_written

/-- The last era there is has the members of the source, and no era for the step. -/
theorem last_era_refused :
    ¬∀ (text : Text) (plan : Plan), Plan.fromJsonl sampleSerde text = .ok plan →
      ∀ current : Configuration,
        plan.validateAgainst current = .ok () ↔ current.order = plan.initial := by
  intro hall
  have hread := fromJsonl_toJsonl sampleSerde_faithful sample_written
  have haccepted := (hall sampleText samplePlan hread { era := 4294967295, order := [⟨1, 1⟩] }).mpr
    rfl
  revert haccepted
  decide

end UvrrCore
