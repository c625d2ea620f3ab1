import UvrrCore.Gate
import UvrrCore.Lawful

/-!
# Pivots, constructed and validated

A non-stop reconfiguration rests on two quorums that meet in the leader alone
(`PivotCondition`). `validatePivot` judges a given pair, `constructPivot` searches for one over
the union of the two memberships.

A pair the search returns is always accepted. The search gives the view-change quorum every node
outside the commit quorum, so where the next membership holds a node the current one does not
know, that quorum is refused and the search ends empty.

## Main results

* `validatePivot_ok_iff`: the validation decides the pivot condition.
* `constructPivot_sound`: a pivot the search returns meets it, whatever the strategy.
* `constructPivot_agrees_iff`: when the two agree.
-/

namespace UvrrCore

open UvrrCore.Configuration

/-- One mask of the search: the set it selects as the commit quorum, and the rest of the members
with the leader as the view-change quorum. -/
def pivotAt (strategy : QuorumStrategy) (current next : Configuration) (leader : Nat)
    (members : List Nat) (mask : Nat) : Option Pivot :=
  let qII := membersOf members mask
  if !qII.contains leader then none
  else if !strategy.isQuorum .commit current qII then none
  else if !strategy.isQuorum .commit next qII then none
  else
    let qI := (((members.filter fun node => !qII.contains node) ++ [leader]).insertionSort
      (· ≤ ·)).dedup
    if !strategy.isQuorum .viewChange current qI then none
    else if qI.length + qII.length ≠ members.length + 1 then none
    else some { qI, qII }

/-- The search for a pivot: the first mask that gives one. -/
def constructPivot (strategy : QuorumStrategy) (current next : Configuration) (leader : Nat) :
    Option Pivot :=
  let members := gateMembers current next
  if maxMembers < members.length then none
  else (List.range (fullMask members + 1)).findSome?
    (pivotAt strategy current next leader members)

/-- A strategy that refuses sets with an unknown node, and for which a superset of a quorum within
the membership is a quorum. -/
structure QuorumStrategy.Monotone (strategy : QuorumStrategy) : Prop where
  known : ∀ {role : Role} {c : Configuration} {xs : List Nat},
    strategy.isQuorum role c xs = true → ∀ node ∈ xs, node ∈ c.nodes
  upward : ∀ {role : Role} {c : Configuration} {xs ys : List Nat},
    strategy.isQuorum role c xs = true → (∀ node ∈ xs, node ∈ ys) → ys.Nodup →
      (∀ node ∈ ys, node ∈ c.nodes) → strategy.isQuorum role c ys = true

theorem QuorumStrategy.Honours.monotone {strategy : QuorumStrategy} (h : strategy.Honours) :
    strategy.Monotone where
  known hquorum := (h.strict hquorum).2
  upward := h.upward

section

variable (strategy : QuorumStrategy) (current next : Configuration) (leader : Nat)

/-- **The pivot condition.** Two sets that meet exactly in the leader, each a quorum where it
votes. -/
structure PivotCondition (pivot : Pivot) : Prop where
  nodupI : pivot.qI.Nodup
  nodupII : pivot.qII.Nodup
  meet : ∀ node, node ∈ pivot.qI ∧ node ∈ pivot.qII ↔ node = leader
  viewChange : strategy.isQuorum .viewChange current pivot.qI = true
  commit : strategy.isQuorum .commit current pivot.qII = true
  commitNext : strategy.isQuorum .commit next pivot.qII = true

end

variable {strategy : QuorumStrategy} {current next : Configuration} {leader : Nat}

/-! ### The validation -/

/-- The part of a set that another one shares is the leader alone. -/
theorem shared_eq_singleton {xs ys : List Nat} (hnodup : xs.Nodup)
    (h : ∀ node, node ∈ xs ∧ node ∈ ys ↔ node = leader) : xs.filter ys.contains = [leader] := by
  refine List.perm_singleton.mp ((List.perm_ext_iff_of_nodup (hnodup.filter _)
    (List.nodup_singleton leader)).mpr fun node => ?_)
  rw [List.mem_filter, List.mem_singleton, List.contains_iff_mem]
  exact h node

theorem validatePivot_eq (pivot : Pivot) :
    validatePivot strategy current next leader pivot =
      match firstDuplicate [] pivot.qI with
      | some node => .error (.duplicateMember node)
      | none =>
        match firstDuplicate [] pivot.qII with
        | some node => .error (.duplicateMember node)
        | none =>
          if !pivot.qI.contains leader || !pivot.qII.contains leader then .error .leaderAbsent
          else if pivot.qI.filter pivot.qII.contains ≠ [leader] then .error .intersectionNotLeader
          else if !strategy.isQuorum .viewChange current pivot.qI then .error .qiNotLegal
          else if !strategy.isQuorum .commit current pivot.qII then .error .qiiNotLegalCurrent
          else if !strategy.isQuorum .commit next pivot.qII then .error .qiiNotLegalNext
          else .ok () := by
  unfold validatePivot
  cases firstDuplicate [] pivot.qI with
  | some node => rfl
  | none =>
    cases firstDuplicate [] pivot.qII with
    | some node => rfl
    | none => rfl

/-- **The validation decides the pivot condition.** -/
theorem validatePivot_ok_iff {pivot : Pivot} :
    validatePivot strategy current next leader pivot = .ok () ↔
      PivotCondition strategy current next leader pivot := by
  rw [validatePivot_eq]
  constructor
  · intro h
    split at h
    · cases h
    · rename_i hI
      split at h
      · cases h
      · rename_i hII
        split at h
        · cases h
        · split at h
          · cases h
          · rename_i hshared
            split at h
            · cases h
            · rename_i hview
              split at h
              · cases h
              · rename_i hcommit
                split at h
                · cases h
                · rename_i hnext
                  refine ⟨(firstDuplicate_none hI).1, (firstDuplicate_none hII).1, fun node => ?_,
                    by simpa using hview, by simpa using hcommit, by simpa using hnext⟩
                  rw [not_not] at hshared
                  rw [← List.mem_singleton, ← hshared, List.mem_filter, List.contains_iff_mem]
  · intro h
    have hleader := (h.meet leader).mpr rfl
    have hnone : ∀ {xs : List Nat}, xs.Nodup → firstDuplicate [] xs = none := fun hnodup =>
      Snapshot.firstDuplicate_eq_none.mpr ⟨hnodup, fun _ _ => List.not_mem_nil⟩
    rw [hnone h.nodupI, hnone h.nodupII]
    simp [hleader.1, hleader.2, shared_eq_singleton h.nodupI h.meet, h.viewChange, h.commit,
      h.commitNext]

/-! ### The search -/

/-- The complement of a set in the union, with the leader. -/
theorem mem_rest {members qII : List Nat} {node : Nat} :
    node ∈ (((members.filter fun node => !qII.contains node) ++ [leader]).insertionSort
      (· ≤ ·)).dedup ↔ (node ∈ members ∧ node ∉ qII) ∨ node = leader := by
  rw [List.mem_dedup, List.mem_insertionSort, List.mem_append, List.mem_filter,
    List.mem_singleton]
  simp

/-- A set and its complement share out the union, but for the leader in both. -/
theorem length_rest {members qII : List Nat} (hnodup : members.Nodup)
    (hsub : qII.Sublist members) (hleader : leader ∈ qII) :
    (((members.filter fun node => !qII.contains node) ++ [leader]).insertionSort
      (· ≤ ·)).dedup.length + qII.length = members.length + 1 := by
  have hapart : leader ∉ members.filter fun node => !qII.contains node := by
    simp [hleader]
  have hrest : ((members.filter fun node => !qII.contains node) ++ [leader]).Nodup :=
    List.nodup_append.mpr ⟨hnodup.filter _, List.nodup_singleton _, fun node hmem other hother =>
      fun heq => hapart (List.mem_singleton.mp hother ▸ heq ▸ hmem)⟩
  have hsame : members.filter (fun node => qII.contains node) = qII := by
    have hlisted := Masks.filter_listed hnodup hsub
    simpa using hlisted
  have hsplit := List.length_eq_length_filter_add (l := members) fun node => qII.contains node
  rw [hsame] at hsplit
  rw [(((List.perm_insertionSort _ _).nodup_iff).mpr hrest).dedup, List.length_insertionSort,
    List.length_append, List.length_singleton]
  omega

/-- A hit of the search: what the mask was tested for. -/
theorem pivotAt_eq_some {members : List Nat} {mask : Nat} {pivot : Pivot}
    (h : pivotAt strategy current next leader members mask = some pivot) :
    pivot.qII = membersOf members mask ∧
      pivot.qI = (((members.filter fun node => !pivot.qII.contains node) ++
        [leader]).insertionSort (· ≤ ·)).dedup ∧
      leader ∈ pivot.qII ∧ strategy.isQuorum .commit current pivot.qII = true ∧
      strategy.isQuorum .commit next pivot.qII = true ∧
      strategy.isQuorum .viewChange current pivot.qI = true := by
  unfold pivotAt at h
  simp only at h
  split at h
  · cases h
  · rename_i hleader
    split at h
    · cases h
    · rename_i hcommit
      split at h
      · cases h
      · rename_i hnext
        split at h
        · cases h
        · rename_i hview
          split at h
          · cases h
          · cases h
            exact ⟨rfl, rfl, by simpa using hleader, by simpa using hcommit, by simpa using hnext,
              by simpa using hview⟩

theorem constructPivot_eq_some {pivot : Pivot}
    (h : constructPivot strategy current next leader = some pivot) :
    ∃ mask, pivotAt strategy current next leader (gateMembers current next) mask = some pivot := by
  unfold constructPivot at h
  simp only at h
  split at h
  · cases h
  · obtain ⟨mask, -, hit, -⟩ := Masks.findSome?_range h
    exact ⟨mask, hit⟩

/-- **A pivot the search returns meets the condition**, whatever the strategy. -/
theorem constructPivot_sound {pivot : Pivot}
    (h : constructPivot strategy current next leader = some pivot) :
    PivotCondition strategy current next leader pivot := by
  obtain ⟨mask, hit⟩ := constructPivot_eq_some h
  obtain ⟨hqII, hqI, hleader, hcommit, hnext, hview⟩ := pivotAt_eq_some hit
  have hsub : pivot.qII.Sublist (gateMembers current next) := by
    rw [hqII]
    exact Masks.select_sublist _ _
  refine ⟨hqI ▸ List.nodup_dedup _, hsub.nodup (List.nodup_dedup _), fun node => ?_, hview,
    hcommit, hnext⟩
  rw [hqI, mem_rest]
  constructor
  · rintro ⟨⟨-, hout⟩ | heq, hmem⟩
    · exact absurd hmem hout
    · exact heq
  · rintro rfl
    exact ⟨.inr rfl, hleader⟩

/-- **What the search finds.** Where the next configuration knows no node more, every pair that
meets the condition leads the search to one. -/
theorem constructPivot_isSome (hs : strategy.Monotone)
    (hcap : (gateMembers current next).length ≤ maxMembers)
    (hold : ∀ node ∈ next.nodes, node ∈ current.nodes) {pivot : Pivot}
    (h : PivotCondition strategy current next leader pivot) :
    (constructPivot strategy current next leader).isSome := by
  have hnodup : (gateMembers current next).Nodup := List.nodup_dedup _
  have hmembers : ∀ node, node ∈ gateMembers current next ↔ node ∈ current.nodes := fun node =>
    mem_gateMembers.trans ⟨fun h => h.elim id (hold node), .inl⟩
  -- the mask of the given commit quorum is a hit, if no earlier one is
  let qII := (gateMembers current next).filter fun node => decide (node ∈ pivot.qII)
  have hqII : ∀ node, node ∈ qII ↔ node ∈ pivot.qII := fun node => by
    rw [List.mem_filter, decide_eq_true_iff, hmembers]
    exact and_iff_right_of_imp (hs.known h.commit node)
  have hselect : membersOf (gateMembers current next)
      (Masks.maskOf (gateMembers current next) fun node => decide (node ∈ pivot.qII)) = qII :=
    Masks.select_maskOf _ _
  have hleader : leader ∈ qII := (hqII leader).mpr ((h.meet leader).mpr rfl).2
  have hsame : ∀ {role : Role} {c : Configuration},
      strategy.isQuorum role c pivot.qII = true → strategy.isQuorum role c qII = true :=
    fun hquorum => hs.upward hquorum (fun node hmem => (hqII node).mpr hmem) (hnodup.filter _)
      fun node hmem => hs.known hquorum node ((hqII node).mp hmem)
  have hview : strategy.isQuorum .viewChange current
      ((((gateMembers current next).filter fun node => !qII.contains node) ++
        [leader]).insertionSort (· ≤ ·)).dedup = true := by
    refine hs.upward h.viewChange (fun node hmem => ?_) (List.nodup_dedup _) fun node hmem => ?_
    · rw [mem_rest, hmembers, hqII]
      by_cases hshared : node ∈ pivot.qII
      · exact .inr ((h.meet node).mp ⟨hmem, hshared⟩)
      · exact .inl ⟨hs.known h.viewChange node hmem, hshared⟩
    · rcases mem_rest.mp hmem with ⟨hin, -⟩ | rfl
      · exact (hmembers node).mp hin
      · exact hs.known h.viewChange _ ((h.meet _).mpr rfl).1
  rw [constructPivot, if_neg (Nat.not_lt.mpr hcap), List.findSome?_isSome_iff]
  refine ⟨Masks.maskOf (gateMembers current next) fun node => decide (node ∈ pivot.qII),
    List.mem_range.mpr (lt_fullMask.mpr (Masks.maskOf_lt _ _)), ?_⟩
  have hcontains : qII.contains leader = true := List.contains_iff_mem.mpr hleader
  have hlength := length_rest hnodup (show qII.Sublist _ from List.filter_sublist) hleader
  rw [pivotAt, hselect]
  simp only [hcontains, hsame h.commit, hsame h.commitNext, hview, hlength, Bool.not_true,
    Bool.false_eq_true, if_false, ne_eq, not_true_eq_false, Option.isSome_some]

/-- A node the current configuration does not know keeps the search from a pivot. -/
theorem constructPivot_none (hs : strategy.Monotone) {node : Nat} (hnew : node ∈ next.nodes)
    (hout : node ∉ current.nodes) : constructPivot strategy current next leader = none := by
  cases hfound : constructPivot strategy current next leader with
  | none => rfl
  | some pivot =>
    obtain ⟨mask, hit⟩ := constructPivot_eq_some hfound
    obtain ⟨-, hqI, -, hcommit, -, hview⟩ := pivotAt_eq_some hit
    -- the commit quorum is of known nodes, so its complement holds the new one
    have hrest : node ∈ pivot.qI := by
      rw [hqI, mem_rest]
      exact .inl ⟨mem_gateMembers.mpr (.inr hnew), fun hmem => hout (hs.known hcommit node hmem)⟩
    exact absurd (hs.known hview node hrest) hout

/-- **When the search agrees with the validation**, for any two configurations with a union within
the cap: the next one knows no node more, or no pair at all meets the pivot condition. -/
theorem constructPivot_agrees_iff (hs : strategy.Monotone)
    (hcap : (gateMembers current next).length ≤ maxMembers) :
    ((∀ pivot, constructPivot strategy current next leader = some pivot →
        validatePivot strategy current next leader pivot = .ok ()) ∧
      ((∃ pivot, validatePivot strategy current next leader pivot = .ok ()) →
        ∃ pivot, constructPivot strategy current next leader = some pivot)) ↔
      (∀ node ∈ next.nodes, node ∈ current.nodes) ∨
        ¬∃ pivot, PivotCondition strategy current next leader pivot := by
  simp only [validatePivot_ok_iff]
  constructor
  · rintro ⟨-, hfinds⟩
    by_contra hnot
    obtain ⟨hnew, hlegal⟩ := not_or.mp hnot
    obtain ⟨node, hnew⟩ := not_forall.mp hnew
    obtain ⟨hnew, hout⟩ := Classical.not_imp.mp hnew
    obtain ⟨pivot, hpivot⟩ := hfinds (not_not.mp hlegal)
    rw [constructPivot_none hs hnew hout] at hpivot
    cases hpivot
  · intro hwhen
    refine ⟨fun pivot => constructPivot_sound, fun hlegal => ?_⟩
    obtain ⟨pivot, hpivot⟩ := hlegal
    have hold := hwhen.resolve_right (not_not.mpr ⟨pivot, hpivot⟩)
    exact Option.isSome_iff_exists.mp (constructPivot_isSome hs hcap hold hpivot)

/-- The leader of three voters has two units and another voter gets its second: the pair the
validation accepts leads the search to one. -/
theorem constructPivot_agrees_increment :
    ∃ pivot, constructPivot weightedMajority
      { era := 2, order := [⟨1, 2⟩, ⟨2, 1⟩, ⟨3, 1⟩] }
      { era := 3, order := [⟨1, 2⟩, ⟨2, 2⟩, ⟨3, 1⟩] } 1 = some pivot :=
  ((constructPivot_agrees_iff weightedMajority_honours.monotone (by decide)).mpr
    (.inl (by decide))).2 ⟨{ qI := [1, 3], qII := [1, 2] }, rfl⟩

/-- A configuration the fold makes, a join it accepts, a pivot the validation accepts for them,
and no pivot from the search. -/
theorem join_without_pivot :
    weightedMajority.Monotone ∧ ∃ current next : Configuration, current.Reachable ∧
      current.apply (.join 4 3) 4 = .ok next ∧
      (gateMembers current next).length ≤ maxMembers ∧
      validatePivot weightedMajority current next 1 { qI := [1, 3], qII := [1, 2] } = .ok () ∧
      constructPivot weightedMajority current next 1 = none := by
  refine ⟨weightedMajority_honours.monotone, { era := 2, order := [⟨1, 2⟩, ⟨2, 1⟩, ⟨3, 1⟩] },
    { era := 3, order := [⟨1, 2⟩, ⟨2, 1⟩, ⟨3, 1⟩, ⟨4, 0⟩] }, ?_, rfl, by decide, rfl,
    constructPivot_none weightedMajority_honours.monotone
      (show 4 ∈ nodes _ by decide) (by decide)⟩
  exact .apply
    (.apply .void (show void.apply (.init [1, 2, 3]) initSlot = _ from rfl))
    (show Configuration.apply _ (.increment 1) 3 = _ from rfl)

end UvrrCore
