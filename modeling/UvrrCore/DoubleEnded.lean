import Mathlib.Data.List.Basic

/-!
# Double-ended iteration

An iterator that yields from both ends, driven by a list of the ends it is asked at. The iterator
every other one is compared with is the list of what is still to come: it gives away its head or
its last element. `draws_simulates` is the rule: two iterators in a relation that one draw keeps
yield the same however they are consumed.
-/

namespace DoubleEnded

variable {α σ τ : Type}

/-- The end an iterator is asked at. -/
inductive End where
  | front
  | back
deriving DecidableEq, Repr

/-- An iterator: what it yields at either end, and what is left of it. -/
structure Iter (σ α : Type) where
  next : σ → Option α × σ
  nextBack : σ → Option α × σ

namespace Iter

def draw (it : Iter σ α) (s : σ) : End → Option α × σ
  | .front => it.next s
  | .back => it.nextBack s

/-- What a list of draws yields. -/
def draws (it : Iter σ α) : (ends : List End) → σ → List (Option α)
  | [], _ => []
  | e :: ends, s => (it.draw s e).1 :: it.draws ends (it.draw s e).2

/-- Everything yielded from the front until there is nothing more, within so many draws. -/
def collect (it : Iter σ α) : (fuel : Nat) → σ → List α
  | 0, _ => []
  | fuel + 1, s =>
    match it.next s with
    | (none, _) => []
    | (some a, rest) => a :: it.collect fuel rest

/-- **The simulation rule.** -/
theorem draws_simulates {it : Iter σ α} {it' : Iter τ α} {R : σ → τ → Prop}
    (hstep : ∀ s t e, R s t → (it.draw s e).1 = (it'.draw t e).1 ∧ R (it.draw s e).2 (it'.draw t e).2)
    {s : σ} {t : τ} (h : R s t) (ends : List End) : it.draws ends s = it'.draws ends t := by
  induction ends generalizing s t with
  | nil => rfl
  | cons e ends ih =>
    obtain ⟨hyield, hrest⟩ := hstep s t e h
    show (it.draw s e).1 :: it.draws ends _ = (it'.draw t e).1 :: it'.draws ends _
    rw [hyield, ih hrest]

theorem collect_simulates {it : Iter σ α} {it' : Iter τ α} {R : σ → τ → Prop}
    (hstep : ∀ s t, R s t → (it.next s).1 = (it'.next t).1 ∧ R (it.next s).2 (it'.next t).2)
    {s : σ} {t : τ} (h : R s t) (fuel : Nat) : it.collect fuel s = it'.collect fuel t := by
  induction fuel generalizing s t with
  | zero => rfl
  | succ fuel ih =>
    obtain ⟨hyield, hrest⟩ := hstep s t h
    unfold collect
    cases hs : it.next s with
    | mk yielded rest =>
      cases ht : it'.next t with
      | mk yielded' rest' =>
        rw [hs, ht] at hyield hrest
        simp only at hyield
        subst hyield
        cases yielded with
        | none => rfl
        | some a =>
          simp only
          rw [ih hrest]

end Iter

/-- The list of what is still to come. -/
def ofList : Iter (List α) α where
  next xs := (xs.head?, xs.tail)
  nextBack xs := (xs.getLast?, xs.dropLast)

theorem ofList_collect {fuel : Nat} {xs : List α} (hfuel : xs.length ≤ fuel) :
    ofList.collect fuel xs = xs := by
  induction fuel generalizing xs with
  | zero => exact (List.length_eq_zero_iff.mp (Nat.le_zero.mp hfuel)).symm
  | succ fuel ih =>
    cases xs with
    | nil => rfl
    | cons x xs =>
      show x :: ofList.collect fuel xs = x :: xs
      rw [ih (Nat.le_of_succ_le_succ hfuel)]

end DoubleEnded
