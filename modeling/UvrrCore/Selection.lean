import UvrrCore.Replica.Base

/-!
# The selected history

The primary of a new view takes the best history of a quorum's reports: the highest retained
ballot, then the longest.
-/

namespace UvrrCore

namespace Evidence

/-- The evidence ranks no higher: its ballot is lower, or its history no longer. -/
def NoBetter (one other : Evidence) : Prop :=
  one.retained < other.retained ∨
    (one.retained = other.retained ∧ one.accepted ≤ other.accepted)

theorem NoBetter.refl (one : Evidence) : one.NoBetter one := Or.inr ⟨rfl, Nat.le_refl _⟩

theorem NoBetter.trans {one two three : Evidence} (h : one.NoBetter two)
    (h' : two.NoBetter three) : one.NoBetter three := by
  rcases h with hlt | ⟨heq, hle⟩
  · rcases h' with hlt' | ⟨heq', -⟩
    · exact Or.inl (hlt.trans hlt')
    · exact Or.inl (heq' ▸ hlt)
  · rcases h' with hlt' | ⟨heq', hle'⟩
    · exact Or.inl (heq ▸ hlt')
    · exact Or.inr ⟨heq.trans heq', hle.trans hle'⟩

theorem NoBetter.retained_le {one other : Evidence} (h : one.NoBetter other) :
    one.retained ≤ other.retained := by
  rcases h with hlt | ⟨heq, -⟩
  · exact hlt.le
  · exact heq.le

end Evidence

/-- One comparison of the selection keeps the better of the two. -/
theorem better_spec {best : Option (Nat × Evidence)} {candidate selected : Nat × Evidence}
    (h : selectHistory.better best candidate = some selected) :
    (selected = candidate ∨ best = some selected) ∧ candidate.2.NoBetter selected.2 ∧
      ∀ incumbent, best = some incumbent → incumbent.2.NoBetter selected.2 := by
  cases best with
  | none =>
    cases h
    exact ⟨Or.inl rfl, Evidence.NoBetter.refl _, fun _ hnone => nomatch hnone⟩
  | some incumbent =>
    simp only [selectHistory.better] at h
    split at h
    · rename_i hbetter
      cases h
      refine ⟨Or.inl rfl, Evidence.NoBetter.refl _, fun other hother => ?_⟩
      cases hother
      rcases hbetter with hlt | ⟨heq, hlt⟩
      · exact Or.inl hlt
      · exact Or.inr ⟨heq.symm, hlt.le⟩
    · rename_i hworse
      cases h
      rw [not_or, not_and, not_lt, not_lt] at hworse
      obtain ⟨hle, hsame⟩ := hworse
      refine ⟨Or.inr rfl, ?_, fun other hother => ?_⟩
      · rcases hle.lt_or_eq with hlt | heq
        · exact Or.inl hlt
        · exact Or.inr ⟨heq, hsame heq⟩
      · cases hother
        exact Evidence.NoBetter.refl _

theorem selected_of_foldl {entries : List (Nat × Evidence)} {best : Option (Nat × Evidence)}
    {selected : Nat × Evidence} (h : entries.foldl selectHistory.better best = some selected) :
    (selected ∈ entries ∨ best = some selected) ∧
      (∀ candidate ∈ entries, candidate.2.NoBetter selected.2) ∧
      ∀ incumbent, best = some incumbent → incumbent.2.NoBetter selected.2 := by
  induction entries generalizing best with
  | nil =>
    have hbest : best = some selected := h
    exact ⟨Or.inr hbest, fun _ hmem => (nomatch hmem), fun incumbent hincumbent => by
      rw [hbest] at hincumbent
      cases hincumbent
      exact Evidence.NoBetter.refl _⟩
  | cons first rest ih =>
    rw [List.foldl_cons] at h
    obtain ⟨hfound, hrest, hbetter⟩ := ih h
    cases hfirst : selectHistory.better best first with
    | none =>
      cases best with
      | none => cases hfirst
      | some incumbent =>
        simp only [selectHistory.better] at hfirst
        split at hfirst <;> cases hfirst
    | some kept =>
      obtain ⟨hkept, hcandidate, hincumbent⟩ := better_spec hfirst
      have htop := hbetter kept hfirst
      refine ⟨?_, fun candidate hmem => ?_, fun incumbent hbest =>
        (hincumbent incumbent hbest).trans htop⟩
      · rcases hfound with hmem | hbest
        · exact Or.inl (List.mem_cons_of_mem _ hmem)
        · obtain rfl : kept = selected := Option.some.inj (hfirst.symm.trans hbest)
          rcases hkept with rfl | hbest
          · exact Or.inl List.mem_cons_self
          · exact Or.inr hbest
      · rcases List.mem_cons.mp hmem with rfl | hmem
        · exact hcandidate.trans htop
        · exact hrest candidate hmem

/-- **The selected history** was reported, and no report ranks higher. -/
theorem selectHistory_spec {evidence : OrdMap Nat Evidence} {reporter : Nat}
    {selected : Evidence} (h : selectHistory evidence = some (reporter, selected)) :
    evidence.get? reporter = some selected ∧
      ∀ n other, evidence.get? n = some other → other.NoBetter selected := by
  obtain ⟨hfound, hall, -⟩ := selected_of_foldl h
  refine ⟨?_, fun n other hget => hall (n, other) (OrdMap.mem_of_get? hget)⟩
  rcases hfound with hmem | hnone
  · exact OrdMap.get?_of_mem hmem
  · cases hnone

end UvrrCore
