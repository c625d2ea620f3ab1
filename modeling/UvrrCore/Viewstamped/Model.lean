import Mathlib.Algebra.Order.BigOperators.Group.Finset
import Mathlib.Algebra.BigOperators.Ring.Finset
import Mathlib.Data.Fintype.Pi
import Mathlib.Data.List.Sort
import Mathlib.Data.List.Dedup
import Mathlib.Tactic.Ring
import Mathlib.Logic.Relation

/-!
# Viewstamped replication, in the abstract

Nodes keep a log under a ballot. The primary of a ballot extends the log of the ballot, the
others hold initial segments of it. A node that leaves its ballot pledges itself to a higher one
and reports its log there; the primary of that ballot opens it with the report of a quorum that
has the highest ballot, and the longest log among those.

The state remembers more than the nodes do: how far each node ever acknowledged the log of each
ballot, what each ballot opened with, and every log a node ever held. What a node had pledged and
acknowledged stays on record, and `Whole` says that it still holds that much.

Nothing here is bound to a concrete protocol: nodes, ballots, quorums and log entries are
parameters.
-/

namespace Viewstamped

/-- Both logs hold the same entry at a position. -/
def Agree {V : Type} (xs ys : List V) (s : ℕ) : Prop := ∃ v, xs[s]? = some v ∧ ys[s]? = some v

section Agree

variable {V : Type} {xs ys zs : List V} {s : ℕ}

theorem Agree.symm (h : Agree xs ys s) : Agree ys xs s := by
  obtain ⟨v, hx, hy⟩ := h
  exact ⟨v, hy, hx⟩

theorem Agree.trans (h : Agree xs ys s) (h' : Agree ys zs s) : Agree xs zs s := by
  obtain ⟨v, hx, hy⟩ := h
  obtain ⟨w, hy', hz⟩ := h'
  rw [hy] at hy'
  cases hy'
  exact ⟨v, hx, hz⟩

theorem Agree.lt_left (h : Agree xs ys s) : s < xs.length := by
  obtain ⟨v, hx, -⟩ := h
  exact (List.getElem?_eq_some_iff.mp hx).1

theorem Agree.lt_right (h : Agree xs ys s) : s < ys.length := h.symm.lt_left

theorem agree_self (h : s < xs.length) : Agree xs xs s :=
  ⟨xs[s], List.getElem?_eq_getElem h, List.getElem?_eq_getElem h⟩

/-- A log that reads the same at a position agrees with the same logs there. -/
theorem Agree.of_eq (h : Agree xs ys s) (heq : zs[s]? = xs[s]?) : Agree zs ys s := by
  obtain ⟨v, hx, hy⟩ := h
  exact ⟨v, heq.trans hx, hy⟩

theorem getElem?_of_segment {v : V} (h : xs <+: ys) (hx : xs[s]? = some v) : ys[s]? = some v := by
  obtain ⟨rest, rfl⟩ := h
  have hlt := (List.getElem?_eq_some_iff.mp hx).1
  rw [List.getElem?_append_left hlt]
  exact hx

theorem Agree.mono_right (h : Agree xs ys s) (hle : ys <+: zs) : Agree xs zs s := by
  obtain ⟨v, hx, hy⟩ := h
  exact ⟨v, hx, getElem?_of_segment hle hy⟩

theorem Agree.mono_left (h : Agree xs ys s) (hle : xs <+: zs) : Agree zs ys s :=
  (h.symm.mono_right hle).symm

theorem agree_of_segment (h : xs <+: ys) (hs : s < xs.length) : Agree xs ys s :=
  (agree_self hs).mono_right h

/-- A log that agrees with another at every position of its own is an initial segment of it. -/
theorem segment_of_agree (h : ∀ i < xs.length, Agree xs ys i) : xs <+: ys := by
  rw [List.prefix_iff_getElem?]
  intro i hi
  obtain ⟨v, hx, hy⟩ := h i hi
  rw [hy, ← hx, List.getElem?_eq_getElem hi]

end Agree

/-! ### States -/

/-- A log as it was held: under which ballot, how far it was known to be committed, and whether
its node served that ballot. -/
structure Snapshot (β V : Type) where
  retained : β
  log : List V
  committed : ℕ
  serving : Prop

/-- What a node holds. It serves the ballot of its log, or has left it for a higher one. -/
structure Node (β V : Type) where
  current : β
  retained : β
  log : List V
  committed : ℕ

def Node.snapshot {β V : Type} (ν : Node β V) : Snapshot β V where
  retained := ν.retained
  log := ν.log
  committed := ν.committed
  serving := ν.retained = ν.current

/-- A log reported for the opening of a ballot. -/
structure Report (N β V : Type) where
  target : β
  node : N
  snapshot : Snapshot β V

/-- What a run shares: the quorums, the primaries, the first ballot and what it opens with. -/
structure Setting (N β V : Type) where
  Quorum : Set N → Prop
  primary : β → N
  first : β
  genesis : List V
  /-- What may stand at a position. -/
  admits : ℕ → V → Prop
  genesis_admits : ∀ {i : ℕ} {v : V}, genesis[i]? = some v → admits i v
  quorum_meet : ∀ {Q Q' : Set N}, Quorum Q → Quorum Q' → ∃ n, n ∈ Q ∧ n ∈ Q'
  quorum_univ : Quorum Set.univ
  genesis_ne : genesis ≠ []

structure State (N β V : Type) where
  nodes : N → Node β V
  /-- The highest ballot a node ever entered. -/
  pledge : N → β
  /-- How far a node ever acknowledged the log of a ballot. -/
  acked : N → β → ℕ
  /-- The log of a ballot, as its primary extends it. -/
  hist : β → List V
  /-- What a ballot opened with. -/
  opening : β → List V
  started : Set β
  reports : Set (Report N β V)
  /-- Every log a node ever held. -/
  seen : Set (Snapshot β V)

variable {N β V : Type} [DecidableEq N] [LinearOrder β]

namespace State

/-- A node takes on another state. -/
def move (a : State N β V) (n : N) (ν : Node β V) : State N β V :=
  { a with
    nodes := Function.update a.nodes n ν
    pledge := Function.update a.pledge n (max (a.pledge n) ν.current)
    seen := insert ν.snapshot a.seen }

/-- A node acknowledges its log under its ballot. -/
def ack (a : State N β V) (n : N) : State N β V :=
  { a with
    acked := Function.update a.acked n
      (Function.update (a.acked n) (a.nodes n).retained (a.nodes n).log.length) }

/-- The log of a ballot gets an entry. -/
def append (a : State N β V) (b : β) (v : V) : State N β V :=
  { a with hist := Function.update a.hist b (a.hist b ++ [v]) }

/-- A primary extends its log, and acknowledges it. -/
def propose (a : State N β V) (p : N) (v : V) : State N β V :=
  ((a.append (a.nodes p).retained v).move p
    { a.nodes p with log := (a.nodes p).log ++ [v] }).ack p

def report (a : State N β V) (n : N) : State N β V :=
  { a with
    reports := insert
      { target := (a.nodes n).current, node := n, snapshot := (a.nodes n).snapshot } a.reports }

/-- A ballot opens with a log. -/
def start (a : State N β V) (b : β) (log : List V) : State N β V :=
  { a with
    hist := Function.update a.hist b log
    opening := Function.update a.opening b log
    started := insert b a.started }

/-- The primary of a ballot opens it and serves it. -/
def win (a : State N β V) (p : N) (log : List V) : State N β V :=
  ((a.start (a.nodes p).current log).move p
    { a.nodes p with retained := (a.nodes p).current, log := log }).ack p

/-- The node holds all it ever acknowledged, and has reached all it ever entered. -/
structure Whole (a : State N β V) (n : N) : Prop where
  pledge : a.pledge n = (a.nodes n).current
  retained : ∀ b, a.acked n b ≠ 0 → b ≤ (a.nodes n).retained
  acked : a.acked n (a.nodes n).retained ≤ (a.nodes n).log.length

/-- A quorum acknowledged the position under the ballot. -/
def Chosen (S : Setting N β V) (a : State N β V) (b : β) (s : ℕ) : Prop :=
  ∃ Q, S.Quorum Q ∧ ∀ n ∈ Q, s < a.acked n b

/-- A quorum acknowledged the position under the ballot or still may. -/
def Choosable (S : Setting N β V) (a : State N β V) (b : β) (s : ℕ) : Prop :=
  ∃ Q, S.Quorum Q ∧ ∀ n ∈ Q, s < a.acked n b ∨ a.pledge n ≤ b

end State

/-- The fresh state: everyone serves the first ballot with its opening log, acknowledged. -/
def initial (S : Setting N β V) : State N β V where
  nodes _ :=
    { current := S.first, retained := S.first, log := S.genesis
      committed := S.genesis.length }
  pledge _ := S.first
  acked _ b := if b = S.first then S.genesis.length else 0
  hist b := if b = S.first then S.genesis else []
  opening b := if b = S.first then S.genesis else []
  started := {S.first}
  reports := ∅
  seen := {{ retained := S.first, log := S.genesis, committed := S.genesis.length
             serving := True }}

/-! ### Steps -/

/-- A report is not better than another: its ballot is lower, or its log no longer. -/
def Snapshot.NoBetter (σ τ : Snapshot β V) : Prop :=
  σ.retained < τ.retained ∨ (σ.retained = τ.retained ∧ σ.log.length ≤ τ.log.length)

/-- **One step.** -/
inductive Step (S : Setting N β V) (a : State N β V) : State N β V → Prop where
  /-- The serving primary extends the log of its ballot. -/
  | propose (p : N) (v : V) (hwhole : a.Whole p)
      (hserving : (a.nodes p).retained = (a.nodes p).current)
      (hprimary : S.primary (a.nodes p).retained = p)
      (hadmits : S.admits (a.nodes p).log.length v) : Step S a (a.propose p v)
  /-- A serving node takes more of its ballot's log. -/
  | extend (n : N) (log : List V) (hserving : (a.nodes n).retained = (a.nodes n).current)
      (hmore : (a.nodes n).log <+: log) (hlog : log <+: a.hist (a.nodes n).retained) :
      Step S a (a.move n { a.nodes n with log := log })
  /-- A serving node acknowledges its log. -/
  | ack (n : N) (hwhole : a.Whole n)
      (hserving : (a.nodes n).retained = (a.nodes n).current) : Step S a (a.ack n)
  /-- A node learns that a part of its log is chosen. -/
  | learn (n : N) (k : ℕ) (hlen : k ≤ (a.nodes n).log.length)
      (hchosen : ∀ s < k, ∃ b ≤ (a.nodes n).retained, a.Chosen S b s) :
      Step S a (a.move n { a.nodes n with committed := k })
  /-- A node enters a higher ballot. -/
  | fence (n : N) (b : β) (hlt : (a.nodes n).current < b) :
      Step S a (a.move n { a.nodes n with current := b })
  /-- A node that left its ballot reports its log to the ballot it entered. -/
  | report (n : N) (hwhole : a.Whole n)
      (hleft : (a.nodes n).retained < (a.nodes n).current) : Step S a (a.report n)
  /-- A node that left its ballot fills its log from one of the same or a higher ballot. -/
  | adopt (n : N) (σ : Snapshot β V) (log : List V) (hσ : σ ∈ a.seen)
      (hleft : (a.nodes n).retained < (a.nodes n).current)
      (hretained : (a.nodes n).retained ≤ σ.retained)
      (hlen : (a.nodes n).log.length ≤ log.length)
      (hfrom : ∀ s < log.length, log[s]? = (a.nodes n).log[s]? ∨ log[s]? = σ.log[s]?) :
      Step S a (a.move n { a.nodes n with log := log })
  /-- A node takes on what a ballot opened with. -/
  | install (n : N) (b : β) (hcurrent : (a.nodes n).current ≤ b)
      (hretained : (a.nodes n).retained < b) (hstarted : b ∈ a.started) :
      Step S a (a.move n
        { a.nodes n with current := b, retained := b, log := a.opening b })
  /-- The primary of a ballot opens it with the best log a quorum reported. Where its own log is
  of the same ballot, or known to be committed, it may keep its own entries. -/
  | win (p : N) (Q : Set N) (best : Report N β V) (log : List V) (hwhole : a.Whole p)
      (hprimary : S.primary (a.nodes p).current = p)
      (hleft : (a.nodes p).retained < (a.nodes p).current)
      (hfresh : (a.nodes p).current ∉ a.started) (hQ : S.Quorum Q)
      (hbest : best ∈ a.reports) (htarget : best.target = (a.nodes p).current)
      (hreports : ∀ n ∈ Q, ∃ ρ ∈ a.reports, ρ.target = (a.nodes p).current ∧ ρ.node = n ∧
        ρ.snapshot.NoBetter best.snapshot)
      (hlen : log.length = best.snapshot.log.length)
      (hfrom : ∀ s < log.length, log[s]? = best.snapshot.log[s]? ∨
        (log[s]? = (a.nodes p).log[s]? ∧
          (best.snapshot.retained = (a.nodes p).retained ∨ s < (a.nodes p).committed))) :
      Step S a (a.win p log)

/-- Any number of steps. -/
abbrev Steps (S : Setting N β V) : State N β V → State N β V → Prop :=
  Relation.ReflTransGen (Step S)

end Viewstamped
