import Mathlib.Algebra.Order.BigOperators.Group.Finset
import Mathlib.Algebra.BigOperators.Ring.Finset
import Mathlib.Data.Fintype.Pi
import Mathlib.Data.List.Sort
import Mathlib.Data.List.Dedup
import Mathlib.Tactic.Ring
import Mathlib.Logic.Relation

/-!
# Traces of deterministic machines

A machine takes inputs one by one; its trace lists the state behind each input with what the
input released. Machines in a step-by-step relation have traces that look alike.
-/

namespace Machine

variable {σ τ ι κ ε δ ο : Type*}

/-- The states behind the inputs, each with what its input released. -/
def trace (step : σ → ι → σ × ε) (s : σ) : List ι → List (σ × ε)
  | [] => []
  | i :: is => step s i :: trace step (step s i).1 is

/-- The state behind all of the inputs. -/
def run (step : σ → ι → σ × ε) (s : σ) (is : List ι) : σ :=
  is.foldl (fun s i => (step s i).1) s

@[simp] theorem run_nil (step : σ → ι → σ × ε) (s : σ) : run step s [] = s := rfl

@[simp] theorem run_cons (step : σ → ι → σ × ε) (s : σ) (i : ι) (is : List ι) :
    run step s (i :: is) = run step (step s i).1 is := rfl

/-- What every step keeps, a run keeps. -/
theorem run_induct {step : σ → ι → σ × ε} {P : σ → Prop} (hstep : ∀ s i, P s → P (step s i).1)
    {s : σ} (hs : P s) (is : List ι) : P (run step s is) := by
  induction is generalizing s with
  | nil => exact hs
  | cons i is ih => exact ih (hstep s i hs)

/-- **Simulation.** A relation that every pair of steps keeps, and under which they look alike,
makes the traces look alike. -/
theorem trace_simulates {step : σ → ι → σ × ε} {step' : τ → κ → τ × δ} {input : ι → κ}
    {look : σ × ε → ο} {look' : τ × δ → ο} {R : σ → τ → Prop}
    (hstep : ∀ s t i, R s t → R (step s i).1 (step' t (input i)).1 ∧
      look (step s i) = look' (step' t (input i)))
    {s : σ} {t : τ} (h : R s t) (is : List ι) :
    (trace step s is).map look = (trace step' t (is.map input)).map look' := by
  induction is generalizing s t with
  | nil => rfl
  | cons i is ih =>
    obtain ⟨hnext, hlook⟩ := hstep s t i h
    simp only [trace, List.map_cons]
    rw [hlook, ih hnext]

end Machine
