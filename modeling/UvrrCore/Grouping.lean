import UvrrCore.Ids

/-!
# Grouping by a key

A list put into groups as it is read: an element joins the first group of its key, and opens one
when there is none. A `Scheme` says how; `group` does it.

* `Grouped` is the account of the result: each group is what the elements of its key make of it,
  in their order, every element has one, and no two have one key.
* `grouped_group` is the rule: the account holds of every list.
-/

namespace Grouping

/-- How elements make groups. -/
structure Scheme (α γ κ : Type) where
  key : α → κ
  groupKey : γ → κ
  opened : α → γ
  joined : γ → α → γ
  opened_key : ∀ a, groupKey (opened a) = key a
  joined_key : ∀ g a, groupKey (joined g a) = groupKey g

variable {α γ κ : Type}

/-- What elements of one key make, one after the other. -/
def Scheme.made (s : Scheme α γ κ) : List α → Option γ
  | [] => none
  | a :: as => some (as.foldl s.joined (s.opened a))

theorem made_snoc {s : Scheme α γ κ} {as : List α} {g : γ} (h : s.made as = some g) (a : α) :
    s.made (as ++ [a]) = some (s.joined g a) := by
  cases as with
  | nil => cases h
  | cons first as =>
    cases h
    simp only [List.cons_append, Scheme.made, List.foldl_append, List.foldl_cons, List.foldl_nil]

/-- A measure that joining adds to is the sum over the members. -/
theorem made_sum {s : Scheme α γ κ} {as : List α} {g : γ} (measure : γ → Nat) (weight : α → Nat)
    (hopened : ∀ a, measure (s.opened a) = weight a)
    (hjoined : ∀ g a, measure (s.joined g a) = measure g + weight a) (h : s.made as = some g) :
    measure g = (as.map weight).sum := by
  induction as using List.reverseRecOn generalizing g with
  | nil => cases h
  | append_singleton as a ih =>
    cases as with
    | nil =>
      cases h
      rw [List.nil_append, List.map_singleton, List.sum_singleton]
      exact hopened a
    | cons first as =>
      have hmade : s.made (first :: as) = some (as.foldl s.joined (s.opened first)) := rfl
      have hgrown := made_snoc hmade a
      rw [hgrown] at h
      cases h
      rw [hjoined, ih hmade, List.map_append, List.sum_append, List.map_singleton,
        List.sum_singleton]

variable [DecidableEq κ]

namespace Scheme

def insert (s : Scheme α γ κ) (a : α) : List γ → List γ
  | [] => [s.opened a]
  | g :: gs => if s.groupKey g = s.key a then s.joined g a :: gs else g :: insert s a gs

def group (s : Scheme α γ κ) (as : List α) : List γ := as.foldl (fun gs a => s.insert a gs) []

/-- The elements of a key. -/
def members (s : Scheme α γ κ) (key : κ) (as : List α) : List α :=
  as.filter fun a => decide (s.key a = key)

end Scheme

structure Grouped (s : Scheme α γ κ) (as : List α) (gs : List γ) : Prop where
  made : ∀ g ∈ gs, s.made (s.members (s.groupKey g) as) = some g
  covers : ∀ a ∈ as, ∃ g ∈ gs, s.groupKey g = s.key a
  distinct : (gs.map s.groupKey).Nodup

variable {s : Scheme α γ κ} {as : List α} {gs : List γ}

theorem insert_keys (a : α) :
    (s.insert a gs).map s.groupKey =
      if s.key a ∈ gs.map s.groupKey then gs.map s.groupKey
      else gs.map s.groupKey ++ [s.key a] := by
  induction gs with
  | nil => simp [Scheme.insert, s.opened_key]
  | cons g gs ih =>
    by_cases heq : s.groupKey g = s.key a
    · simp [Scheme.insert, heq, s.joined_key]
    · have hne : s.key a ≠ s.groupKey g := fun h => heq h.symm
      simp only [Scheme.insert, if_neg heq, List.map_cons, List.mem_cons, hne, false_or, ih]
      split <;> simp

/-- What stands in the groups once an element is in: the groups of other keys, the group it joined,
or the one it opened. -/
theorem mem_insert {a : α} (hdistinct : (gs.map s.groupKey).Nodup) {g : γ}
    (h : g ∈ s.insert a gs) :
    (g ∈ gs ∧ s.groupKey g ≠ s.key a) ∨
      (∃ old ∈ gs, s.groupKey old = s.key a ∧ g = s.joined old a) ∨
      (s.key a ∉ gs.map s.groupKey ∧ g = s.opened a) := by
  induction gs with
  | nil => exact Or.inr (Or.inr ⟨List.not_mem_nil, List.mem_singleton.mp h⟩)
  | cons head gs ih =>
    rw [List.map_cons, List.nodup_cons] at hdistinct
    obtain ⟨hhead, hdistinct⟩ := hdistinct
    by_cases heq : s.groupKey head = s.key a
    · rw [Scheme.insert, if_pos heq] at h
      rcases List.mem_cons.mp h with rfl | h
      · exact Or.inr (Or.inl ⟨head, List.mem_cons_self, heq, rfl⟩)
      · refine Or.inl ⟨List.mem_cons_of_mem _ h, fun hsame => hhead ?_⟩
        rw [heq, ← hsame]
        exact List.mem_map_of_mem h
    · rw [Scheme.insert, if_neg heq] at h
      rcases List.mem_cons.mp h with rfl | h
      · exact Or.inl ⟨List.mem_cons_self, heq⟩
      · rcases ih hdistinct h with ⟨hmem, hne⟩ | ⟨old, hold, hkey, rfl⟩ | ⟨hnew, rfl⟩
        · exact Or.inl ⟨List.mem_cons_of_mem _ hmem, hne⟩
        · exact Or.inr (Or.inl ⟨old, List.mem_cons_of_mem _ hold, hkey, rfl⟩)
        · refine Or.inr (Or.inr ⟨fun hmem => ?_, rfl⟩)
          rcases List.mem_cons.mp hmem with hsame | hmem
          · exact heq hsame.symm
          · exact hnew hmem

theorem members_snoc (key : κ) (a : α) :
    s.members key (as ++ [a]) =
      if s.key a = key then s.members key as ++ [a] else s.members key as := by
  rw [Scheme.members, List.filter_append]
  by_cases heq : s.key a = key
  · simp [heq, Scheme.members]
  · simp [heq, Scheme.members]

/-- A key without a group has no members. -/
theorem Grouped.members_eq_nil (h : Grouped s as gs) {key : κ} (hnew : key ∉ gs.map s.groupKey) :
    s.members key as = [] := by
  refine List.filter_eq_nil_iff.mpr fun a hmem hkey => ?_
  obtain ⟨g, hg, hgkey⟩ := h.covers a hmem
  exact hnew (List.mem_map.mpr ⟨g, hg, hgkey.trans (of_decide_eq_true hkey)⟩)

/-- **One element.** -/
theorem Grouped.snoc (h : Grouped s as gs) (a : α) : Grouped s (as ++ [a]) (s.insert a gs) := by
  refine ⟨fun g hg => ?_, fun other hother => ?_, ?_⟩
  · rcases mem_insert h.distinct hg with ⟨hmem, hne⟩ | ⟨old, hold, hkey, rfl⟩ | ⟨hnew, rfl⟩
    · rw [members_snoc, if_neg fun heq => hne heq.symm]
      exact h.made g hmem
    · rw [s.joined_key, members_snoc, if_pos hkey.symm]
      exact made_snoc (h.made old hold) a
    · rw [s.opened_key, members_snoc, if_pos rfl, h.members_eq_nil hnew]
      rfl
  · have hin : s.key other ∈ (s.insert a gs).map s.groupKey := by
      rw [insert_keys]
      rcases List.mem_append.mp hother with hother | hother
      · obtain ⟨g, hg, hgkey⟩ := h.covers other hother
        have hold : s.key other ∈ gs.map s.groupKey := List.mem_map.mpr ⟨g, hg, hgkey⟩
        split
        · exact hold
        · exact List.mem_append_left _ hold
      · rw [List.mem_singleton.mp hother]
        split
        · assumption
        · exact List.mem_append_right _ (List.mem_singleton.mpr rfl)
    exact List.mem_map.mp hin
  · rw [insert_keys]
    split
    · exact h.distinct
    · rename_i hnew
      rw [List.nodup_append]
      refine ⟨h.distinct, List.nodup_singleton _, fun key hkey other hother heq => hnew ?_⟩
      rw [← List.mem_singleton.mp hother, ← heq]
      exact hkey

/-- **The groups of a list.** -/
theorem grouped_group (s : Scheme α γ κ) (as : List α) : Grouped s as (s.group as) := by
  induction as using List.reverseRecOn with
  | nil => exact ⟨fun g hg => absurd hg List.not_mem_nil, fun a ha => absurd ha List.not_mem_nil,
      List.nodup_nil⟩
  | append_singleton as a ih =>
    have hstep : s.group (as ++ [a]) = s.insert a (s.group as) := by
      rw [Scheme.group, List.foldl_append]
      rfl
    rw [hstep]
    exact ih.snoc a

end Grouping
