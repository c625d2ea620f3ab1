import Mathlib.Algebra.Order.BigOperators.Group.Finset
import Mathlib.Algebra.BigOperators.Ring.Finset
import Mathlib.Data.Fintype.Pi
import Mathlib.Data.List.Sort
import Mathlib.Data.List.Dedup
import Mathlib.Tactic.Ring
import Mathlib.Logic.Relation

/-!
# Strict majorities of a weight

A weight on a finite set of voters and the sets that carry more than half of it. Two such sets
of one weight share a voter, and they still do when the weight changes between the two by at
most one unit of mass, or by a common factor. Nothing here knows what a voter is.
-/

namespace Majority

variable {α : Type*}

/-- `q` carries more than half of the weight of `s`. -/
def IsMajority (weight : α → ℕ) (s q : Finset α) : Prop :=
  q ⊆ s ∧ ∑ a ∈ s, weight a < 2 * ∑ a ∈ q, weight a

/-- The mass that moves from one weight to another, voter by voter. -/
def moved (before after : α → ℕ) (s : Finset α) : ℕ :=
  ∑ a ∈ s, ((before a - after a) + (after a - before a))

theorem moved_self (weight : α → ℕ) (s : Finset α) : moved weight weight s = 0 := by
  simp [moved]

/-- A weight that changes at one voter by at most one unit moves at most one unit. -/
theorem moved_le_one [DecidableEq α] {before after : α → ℕ} (s : Finset α) (a : α)
    (hrest : ∀ b, b ≠ a → after b = before b)
    (hat : after a ≤ before a + 1 ∧ before a ≤ after a + 1) : moved before after s ≤ 1 := by
  have hterm : ∀ b ∈ s, ((before b - after b) + (after b - before b)) ≤
      if b = a then 1 else 0 := by
    intro b _
    by_cases hb : b = a
    · subst hb
      rw [if_pos rfl]
      omega
    · rw [if_neg hb, hrest b hb]
      omega
  calc moved before after s
      ≤ ∑ b ∈ s, (if b = a then 1 else 0) := Finset.sum_le_sum hterm
    _ ≤ 1 := by
      rw [Finset.sum_ite_eq']
      split <;> omega

/-- Twice the weights of disjoint sets, one before and one after, against both totals and the
mass that moved. -/
theorem disjoint_weights_le [DecidableEq α] (before after : α → ℕ) {s q q' : Finset α} (hq : q ⊆ s)
    (hq' : q' ⊆ s) (hdisjoint : Disjoint q q') :
    2 * ∑ a ∈ q, before a + 2 * ∑ a ∈ q', after a ≤
      ∑ a ∈ s, before a + ∑ a ∈ s, after a + moved before after s := by
  have hbefore : ∑ a ∈ q, before a = ∑ a ∈ s, if a ∈ q then before a else 0 := by
    rw [← Finset.sum_filter, Finset.filter_mem_eq_inter, Finset.inter_eq_right.mpr hq]
  have hafter : ∑ a ∈ q', after a = ∑ a ∈ s, if a ∈ q' then after a else 0 := by
    rw [← Finset.sum_filter, Finset.filter_mem_eq_inter, Finset.inter_eq_right.mpr hq']
  rw [hbefore, hafter, moved, Finset.mul_sum, Finset.mul_sum, ← Finset.sum_add_distrib,
    ← Finset.sum_add_distrib, ← Finset.sum_add_distrib]
  apply Finset.sum_le_sum
  intro a _
  -- a voter counts on one side only, and the larger of its two weights is within the move
  have hside : a ∈ q → a ∉ q' := fun h h' => Finset.disjoint_left.mp hdisjoint h h'
  by_cases ha : a ∈ q
  · rw [if_pos ha, if_neg (hside ha)]
    omega
  · rw [if_neg ha]
    split <;> omega

/-- **Majorities across a move of one unit share a voter.** -/
theorem IsMajority.meet [DecidableEq α] {before after : α → ℕ} {s q q' : Finset α}
    (hmoved : moved before after s ≤ 1) (h : IsMajority before s q)
    (h' : IsMajority after s q') : ∃ a, a ∈ q ∧ a ∈ q' := by
  by_contra hnone
  have hdisjoint : Disjoint q q' :=
    Finset.disjoint_left.mpr fun a ha ha' => hnone ⟨a, ha, ha'⟩
  have hle := disjoint_weights_le before after h.1 h'.1 hdisjoint
  have hq := h.2
  have hq' := h'.2
  omega

/-- A majority of a multiple of a weight is one of the weight. -/
theorem IsMajority.of_scaled {weight scaled : α → ℕ} {s q : Finset α} {factor : ℕ}
    (hscaled : ∀ a, scaled a = factor * weight a) (h : IsMajority scaled s q) :
    IsMajority weight s q := by
  refine ⟨h.1, ?_⟩
  have hlt := h.2
  simp only [hscaled, ← Finset.mul_sum] at hlt
  rw [show 2 * (factor * ∑ a ∈ q, weight a) = factor * (2 * ∑ a ∈ q, weight a) from by ring]
    at hlt
  exact lt_of_mul_lt_mul_left hlt (Nat.zero_le _)

/-- **Majorities across a common factor share a voter.** -/
theorem IsMajority.meet_scaled [DecidableEq α] {weight scaled : α → ℕ} {s q q' : Finset α} {factor : ℕ}
    (hscaled : ∀ a, scaled a = factor * weight a) (h : IsMajority weight s q)
    (h' : IsMajority scaled s q') : ∃ a, a ∈ q ∧ a ∈ q' := by
  refine h.meet ?_ (h'.of_scaled hscaled)
  rw [moved_self]
  exact Nat.zero_le _

end Majority
