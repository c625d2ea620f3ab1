import Mathlib.Data.List.Basic

/-!
# Repeated operations on a cell

A cell is empty or holds a value. It is read, written, or compared and set: the new value is put
in where the cell holds the expected one, and an empty cell refuses. A list of operations that
writes forgets what the cell held before; one that does not leaves an empty cell empty, and moves
a held value along the links, from expected to new, of its compare-and-sets.

The comparison is a Boolean one and need not be lawful.

## Main results

* `run_run_iff`: when a list run twice leaves what it leaves once.
* `run_run_none`: from the empty cell it always does.
-/

namespace Cell

variable {V : Type}

inductive Op (V : Type) where
  | read
  | write (value : V)
  | cas (old new : V)

section Running

variable [BEq V]

/-- What an operation leaves in a cell. -/
def Op.on : Op V → Option V → Option V
  | .read, cell => cell
  | .write value, _ => some value
  | .cas _ _, none => none
  | .cas old new, some value => if value == old then some new else some value

def run (ops : List (Op V)) (cell : Option V) : Option V :=
  ops.foldl (fun cell op => op.on cell) cell

@[simp] theorem run_nil (cell : Option V) : run [] cell = cell := rfl

@[simp] theorem run_cons (op : Op V) (ops : List (Op V)) (cell : Option V) :
    run (op :: ops) cell = run ops (op.on cell) := rfl

theorem run_append (ops rest : List (Op V)) (cell : Option V) :
    run (ops ++ rest) cell = run rest (run ops cell) := List.foldl_append

end Running

/-! ### Writes -/

/-- Some operation of the list writes. -/
def Writes (ops : List (Op V)) : Prop := ∃ value, Op.write value ∈ ops

@[simp] theorem writes_nil : ¬ Writes ([] : List (Op V)) := by
  rintro ⟨value, hmem⟩
  exact List.not_mem_nil hmem

theorem writes_cons {op : Op V} {ops : List (Op V)} :
    Writes (op :: ops) ↔ (∃ value, op = .write value) ∨ Writes ops := by
  constructor
  · rintro ⟨value, hmem⟩
    rcases List.mem_cons.mp hmem with hop | hmem
    · exact Or.inl ⟨value, hop.symm⟩
    · exact Or.inr ⟨value, hmem⟩
  · rintro (⟨value, rfl⟩ | ⟨value, hmem⟩)
    · exact ⟨value, List.mem_cons_self⟩
    · exact ⟨value, List.mem_cons_of_mem _ hmem⟩

/-- A list with a write is cut at its last one. -/
theorem Writes.split {ops : List (Op V)} (h : Writes ops) :
    ∃ before value after, ops = before ++ .write value :: after ∧ ¬ Writes after := by
  induction ops with
  | nil => exact absurd h writes_nil
  | cons op ops ih =>
    by_cases hrest : Writes ops
    · obtain ⟨before, value, after, rfl, hafter⟩ := ih hrest
      exact ⟨op :: before, value, after, rfl, hafter⟩
    · obtain ⟨value, rfl⟩ := (writes_cons.mp h).resolve_right hrest
      exact ⟨[], value, ops, rfl, hrest⟩

section Running

variable [BEq V]

/-- Behind a write nothing is left of what the cell held before. -/
theorem run_of_writes {ops : List (Op V)} (h : Writes ops) (cell other : Option V) :
    run ops cell = run ops other := by
  obtain ⟨before, value, after, rfl, -⟩ := h.split
  rw [run_append, run_append, run_cons, run_cons]
  rfl

/-- Without a write an empty cell stays empty. -/
theorem run_none_of_not_writes {ops : List (Op V)} (h : ¬ Writes ops) : run ops none = none := by
  induction ops with
  | nil => rfl
  | cons op ops ih =>
    obtain ⟨hop, hrest⟩ := not_or.mp fun hor => h (writes_cons.mpr hor)
    cases op with
    | read => exact ih hrest
    | write value => exact absurd ⟨value, rfl⟩ hop
    | cas old new => exact ih hrest

end Running

/-! ### Links -/

/-- The link of an operation, from the expected value to the new one. -/
def Op.link? : Op V → Option (V × V)
  | .cas old new => some (old, new)
  | _ => none

/-- The links of a list, in its order. -/
def links (ops : List (Op V)) : List (V × V) := ops.filterMap Op.link?

/-- A value followed along links in their order: at each one whose expected value it equals, it
goes over to the new one. -/
inductive Follows [BEq V] : List (V × V) → V → V → Prop
  | done {value : V} : Follows [] value value
  | missed {old new value last : V} {rest : List (V × V)} (hmissed : (value == old) = false)
      (hrest : Follows rest value last) : Follows ((old, new) :: rest) value last
  | taken {old new value last : V} {rest : List (V × V)} (htaken : (value == old) = true)
      (hrest : Follows rest new last) : Follows ((old, new) :: rest) value last

section Running

variable [BEq V]

/-- Without a write a held value follows the links. -/
theorem run_some_of_not_writes {ops : List (Op V)} (h : ¬ Writes ops) {value last : V} :
    run ops (some value) = some last ↔ Follows (links ops) value last := by
  induction ops generalizing value with
  | nil =>
    constructor
    · intro hrun
      cases hrun
      exact .done
    · intro hfollows
      cases hfollows
      rfl
  | cons op ops ih =>
    obtain ⟨hop, hrest⟩ := not_or.mp fun hor => h (writes_cons.mpr hor)
    cases op with
    | read => exact ih hrest
    | write written => exact absurd ⟨written, rfl⟩ hop
    | cas old new =>
      rw [run_cons]
      cases heq : value == old with
      | true =>
        rw [Op.on, if_pos heq, ih hrest]
        refine ⟨.taken heq, fun hfollows => ?_⟩
        cases hfollows with
        | missed hmissed _ => exact absurd (heq.symm.trans hmissed) Bool.noConfusion
        | taken _ hrest => exact hrest
      | false =>
        rw [Op.on, if_neg (by rw [heq]; exact Bool.noConfusion), ih hrest]
        refine ⟨.missed heq, fun hfollows => ?_⟩
        cases hfollows with
        | missed _ hrest => exact hrest
        | taken htaken _ => exact absurd (heq.symm.trans htaken) Bool.noConfusion

/-- A value that no link expects stays. -/
theorem follows_of_unexpected {rest : List (V × V)} {value : V}
    (h : ∀ link ∈ rest, (value == link.1) = false) : Follows rest value value := by
  induction rest with
  | nil => exact .done
  | cons link rest ih =>
    exact .missed (h link List.mem_cons_self) (ih fun next hnext => h next
      (List.mem_cons_of_mem _ hnext))

/-- Without a write a held value is not lost. -/
theorem exists_run_some {ops : List (Op V)} (h : ¬ Writes ops) (value : V) :
    ∃ last, run ops (some value) = some last := by
  induction ops generalizing value with
  | nil => exact ⟨value, rfl⟩
  | cons op ops ih =>
    obtain ⟨hop, hrest⟩ := not_or.mp fun hor => h (writes_cons.mpr hor)
    cases op with
    | read => exact ih hrest value
    | write written => exact absurd ⟨written, rfl⟩ hop
    | cas old new =>
      rw [run_cons, Op.on]
      split
      · exact ih hrest new
      · exact ih hrest value

/-- The value a list leaves in an empty cell: that of its last write, followed along the links
behind it. -/
def Leaves (ops : List (Op V)) (last : V) : Prop :=
  ∃ before value after, ops = before ++ .write value :: after ∧ ¬ Writes after ∧
    Follows (links after) value last

theorem run_none_eq_some_iff {ops : List (Op V)} {last : V} :
    run ops none = some last ↔ Leaves ops last := by
  have hbehind : ∀ {before after : List (Op V)} {value : V}, ¬ Writes after →
      (run (before ++ .write value :: after) none = some last ↔
        Follows (links after) value last) := by
    intro before after value hafter
    rw [run_append, run_cons, Op.on, run_some_of_not_writes hafter]
  constructor
  · intro hrun
    have hwrites : Writes ops := by
      by_contra hnot
      rw [run_none_of_not_writes hnot] at hrun
      cases hrun
    obtain ⟨before, value, after, rfl, hafter⟩ := hwrites.split
    exact ⟨before, value, after, rfl, hafter, (hbehind hafter).mp hrun⟩
  · rintro ⟨before, value, after, rfl, hafter, hfollows⟩
    exact (hbehind hafter).mpr hfollows

/-! ### Twice is once -/

/-- From the empty cell a list run twice leaves what it leaves once. -/
theorem run_run_none (ops : List (Op V)) : run ops (run ops none) = run ops none := by
  by_cases h : Writes ops
  · exact run_of_writes h _ _
  · rw [run_none_of_not_writes h, run_none_of_not_writes h]

/-- **Twice is once** exactly where the list writes, or a held value, followed along the links to
their end, comes back there when it is followed again. -/
theorem run_run_iff {ops : List (Op V)} {cell : Option V} :
    run ops (run ops cell) = run ops cell ↔
      (¬ Writes ops → ∀ value last, cell = some value → Follows (links ops) value last →
        Follows (links ops) last last) := by
  by_cases h : Writes ops
  · exact ⟨fun _ hnot => absurd h hnot, fun _ => run_of_writes h _ _⟩
  · constructor
    · rintro htwice - value last rfl hfollows
      have honce := (run_some_of_not_writes h).mpr hfollows
      rw [honce] at htwice
      exact (run_some_of_not_writes h).mp htwice
    · intro hback
      cases cell with
      | none => exact run_run_none ops
      | some value =>
        obtain ⟨last, hlast⟩ := exists_run_some h value
        rw [hlast]
        exact (run_some_of_not_writes h).mpr
          (hback h value last rfl ((run_some_of_not_writes h).mp hlast))

end Running

end Cell
