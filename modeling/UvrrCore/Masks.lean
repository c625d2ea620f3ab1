import Mathlib.Data.Nat.Bitwise
import Mathlib.Data.List.Nodup
import Mathlib.Data.List.Perm.Subperm
import Mathlib.Data.Nat.Bits

/-!
# Sublists by bit masks

The sublists of a list can be named by the masks of its positions. `select` reads a mask,
`maskOf` writes the mask of a predicate, and `ones` counts the set bits: over a list without
duplicates the two are inverse, sublists are the masks below, and a search through all masks of
one size after the other finds a smallest sublist first.
-/

namespace UvrrCore

namespace Masks

variable {α : Type}

/-- The elements whose bit is set. -/
def select (members : List α) (mask : Nat) : List α :=
  (members.zipIdx.filter fun member => mask.testBit member.2).map Prod.fst

/-- The mask of the elements a predicate holds of. -/
def maskOf : List α → (α → Bool) → Nat
  | [], _ => 0
  | x :: xs, p => 2 * maskOf xs p + (p x).toNat

/-- The set bits below a width. -/
def ones (mask width : Nat) : Nat := ((List.range width).filter mask.testBit).length

theorem testBit_maskOf (members : List α) (p : α → Bool) (i : Nat) :
    (maskOf members p).testBit i = (members[i]?.map p).getD false := by
  induction members generalizing i with
  | nil => simp [maskOf]
  | cons x xs ih =>
    cases i with
    | zero => cases h : p x <;> simp [maskOf, h, Nat.testBit_zero]
    | succ i =>
      rw [maskOf, Nat.testBit_succ, List.getElem?_cons_succ, ← ih]
      congr 1
      cases p x
      · simp
      · simp
        omega

theorem maskOf_lt (members : List α) (p : α → Bool) : maskOf members p < 2 ^ members.length := by
  induction members with
  | nil => simp [maskOf]
  | cons x xs ih =>
    rw [maskOf, List.length_cons, Nat.pow_succ]
    have hbit : (p x).toNat ≤ 1 := Bool.toNat_le _
    omega

theorem mem_select {members : List α} {mask : Nat} {x : α} :
    x ∈ select members mask ↔ ∃ i, members[i]? = some x ∧ mask.testBit i = true := by
  rw [select, List.mem_map]
  constructor
  · rintro ⟨⟨y, i⟩, hmem, rfl⟩
    obtain ⟨hmem, hbit⟩ := List.mem_filter.mp hmem
    exact ⟨i, List.mem_zipIdx_iff_getElem?.mp hmem, hbit⟩
  · rintro ⟨i, hi, hbit⟩
    exact ⟨(x, i), List.mem_filter.mpr ⟨List.mem_zipIdx_iff_getElem?.mpr hi, hbit⟩, rfl⟩

theorem select_sublist (members : List α) (mask : Nat) :
    (select members mask).Sublist members := by
  have h := (List.filter_sublist (l := members.zipIdx)
    (p := fun member => mask.testBit member.2)).map Prod.fst
  rwa [List.zipIdx_map_fst] at h

/-- **The mask of a predicate selects what the predicate holds of.** -/
theorem select_maskOf (members : List α) (p : α → Bool) :
    select members (maskOf members p) = members.filter p := by
  have hbits : members.zipIdx.filter (fun member => (maskOf members p).testBit member.2) =
      members.zipIdx.filter (p ∘ Prod.fst) := by
    refine List.filter_congr fun member hmem => ?_
    rw [testBit_maskOf, List.mem_zipIdx_iff_getElem?.mp hmem]
    rfl
  rw [select, hbits, ← List.filter_map, List.zipIdx_map_fst]

/-- As many elements are selected as bits are set. -/
theorem length_select (members : List α) (mask : Nat) :
    (select members mask).length = ones mask members.length := by
  have hpositions : members.zipIdx.map Prod.snd = List.range members.length := by
    rw [List.zipIdx_map_snd, List.range_eq_range']
  rw [select, List.length_map, ones, ← hpositions, List.filter_map, List.length_map]
  rfl

theorem ones_maskOf (members : List α) (p : α → Bool) :
    ones (maskOf members p) members.length = (members.filter p).length := by
  rw [← length_select, select_maskOf]

/-- A mask below another one has no more bits. -/
theorem ones_mono {mask mask' width : Nat}
    (h : ∀ i < width, mask.testBit i = true → mask'.testBit i = true) :
    ones mask width ≤ ones mask' width := by
  unfold ones
  rw [← List.countP_eq_length_filter, ← List.countP_eq_length_filter]
  exact List.countP_mono_left fun i hmem => h i (List.mem_range.mp hmem)

/-- A mask and its complement share out the positions. -/
theorem ones_complement (mask width : Nat) :
    ones ((2 ^ width - 1) ^^^ mask) width + ones mask width = width := by
  have hbits : (List.range width).filter ((2 ^ width - 1) ^^^ mask).testBit =
      (List.range width).filter fun i => !mask.testBit i := by
    refine List.filter_congr fun i hmem => ?_
    rw [Nat.testBit_xor, Nat.testBit_two_pow_sub_one, decide_eq_true (List.mem_range.mp hmem),
      Bool.true_xor]
  unfold ones
  rw [hbits, Nat.add_comm, ← List.countP_eq_length_filter, ← List.countP_eq_length_filter]
  have hsum := List.length_eq_countP_add_countP (l := List.range width) mask.testBit
  simpa [List.length_range] using hsum.symm

/-- The complement of the mask of a predicate is the mask of its negation. -/
theorem complement_maskOf (members : List α) (p : α → Bool) :
    (2 ^ members.length - 1) ^^^ maskOf members p = maskOf members fun x => !p x := by
  refine Nat.eq_of_testBit_eq fun i => ?_
  rw [Nat.testBit_xor, Nat.testBit_two_pow_sub_one, testBit_maskOf, testBit_maskOf]
  by_cases hi : i < members.length
  · rw [decide_eq_true hi, List.getElem?_eq_getElem hi]
    simp
  · rw [decide_eq_false hi, List.getElem?_eq_none (Nat.le_of_not_lt hi)]
    rfl

/-- A sublist of a list without duplicates is the part of it that it lists. -/
theorem filter_listed [DecidableEq α] {xs members : List α} (hnodup : members.Nodup)
    (h : xs.Sublist members) : members.filter (fun x => decide (x ∈ xs)) = xs := by
  have hself : xs.filter (fun x => decide (x ∈ xs)) = xs :=
    List.filter_eq_self.mpr fun x hmem => decide_eq_true hmem
  have hsub : xs.Sublist (members.filter fun x => decide (x ∈ xs)) := by
    have hfiltered := h.filter fun x => decide (x ∈ xs)
    rwa [hself] at hfiltered
  have hback : members.filter (fun x => decide (x ∈ xs)) ⊆ xs := fun x hmem =>
    of_decide_eq_true (List.mem_filter.mp hmem).2
  exact (hsub.eq_of_length_le (List.subperm_of_subset (hnodup.filter _) hback).length_le).symm

/-- Over a list without duplicates, a selection that lists an element has its bit. -/
theorem testBit_of_mem {members : List α} (hnodup : members.Nodup) {mask i : Nat} {x : α}
    (hi : members[i]? = some x) (hmem : x ∈ select members mask) : mask.testBit i = true := by
  obtain ⟨j, hj, hbit⟩ := mem_select.mp hmem
  obtain ⟨hilt, hieq⟩ := List.getElem?_eq_some_iff.mp hi
  obtain ⟨hjlt, hjeq⟩ := List.getElem?_eq_some_iff.mp hj
  have hij : i = j := (List.Nodup.getElem_inj_iff hnodup).mp (hieq.trans hjeq.symm)
  exact hij ▸ hbit

/-- **A smaller selection has a smaller mask.** -/
theorem exists_submask [DecidableEq α] {members xs : List α} (hnodup : members.Nodup)
    {mask : Nat} (h : xs.Sublist (select members mask)) :
    ∃ sub, sub < 2 ^ members.length ∧ select members sub = xs ∧
      ones sub members.length = xs.length ∧
      ∀ i, sub.testBit i = true → mask.testBit i = true := by
  have hfilter := filter_listed hnodup (h.trans (select_sublist members mask))
  refine ⟨maskOf members fun x => decide (x ∈ xs), maskOf_lt _ _, ?_, ?_, fun i hbit => ?_⟩
  · rw [select_maskOf, hfilter]
  · rw [ones_maskOf, hfilter]
  · rw [testBit_maskOf] at hbit
    cases hi : members[i]? with
    | none => rw [hi] at hbit; cases hbit
    | some x =>
      rw [hi] at hbit
      exact testBit_of_mem hnodup hi (h.subset (by simpa using hbit))

/-- The first hit of a search through the numbers below a bound. -/
theorem findSome?_range {β : Type} {n : Nat} {f : Nat → Option β} {b : β}
    (h : (List.range n).findSome? f = some b) :
    ∃ a < n, f a = some b ∧ ∀ x < a, f x = none := by
  obtain ⟨before, a, after, hsplit, hhit, hmiss⟩ := List.findSome?_eq_some_iff.mp h
  have hlen : a = before.length ∧ before.length < n := by
    have hget := congrArg (fun xs => xs[before.length]?) hsplit
    simp only [List.getElem?_append_right (Nat.le_refl _), Nat.sub_self,
      List.getElem?_cons_zero] at hget
    obtain ⟨hlt, heq⟩ := List.getElem?_eq_some_iff.mp hget
    rw [List.getElem_range] at heq
    exact ⟨heq.symm, by simpa using hlt⟩
  refine ⟨a, hlen.1 ▸ hlen.2, hhit, fun x hlt => hmiss x ?_⟩
  have hx : (before ++ a :: after)[x]? = some x := by
    rw [← hsplit, List.getElem?_range (by omega)]
  rw [List.getElem?_append_left (by omega)] at hx
  exact List.mem_of_getElem? hx

end Masks

end UvrrCore
