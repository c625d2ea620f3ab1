import UvrrCore.Masks
import UvrrCore.Operations

/-!
# The gate and its contract

A strategy is under contract (`QuorumStrategy.Honours`): it refuses sets with an unknown or a
repeated node, and a superset of a quorum within the membership is a quorum. Under that contract
the gate is exact. The fast scan tries a mask against its complement over the union of two
memberships, where a node may be known to one side only; a pair of disjoint quorums is caught at
the mask that gives the first side all the nodes it alone knows.

The thorough pass owes nothing to the contract. Whatever the strategy, it finds a pair when the
scan found one, and the pair it returns has no smaller quorum inside either set.
-/

namespace UvrrCore

open UvrrCore.Configuration

/-- **The contract of a strategy.** -/
structure QuorumStrategy.Honours (strategy : QuorumStrategy) : Prop where
  strict : ∀ {role : Role} {c : Configuration} {xs : List Nat},
    strategy.isQuorum role c xs = true → xs.Nodup ∧ ∀ node ∈ xs, node ∈ c.nodes
  upward : ∀ {role : Role} {c : Configuration} {xs ys : List Nat},
    strategy.isQuorum role c xs = true → (∀ node ∈ xs, node ∈ ys) → ys.Nodup →
      (∀ node ∈ ys, node ∈ c.nodes) → strategy.isQuorum role c ys = true

/-- The strategy of the repository honours it. -/
theorem weightedMajority_honours : weightedMajority.Honours where
  strict h := by
    obtain ⟨weight, hweight, -⟩ := weightedMajority_isQuorum.mp h
    obtain ⟨hnodup, hmem, -⟩ := weightOfSet_eq_sum hweight
    exact ⟨hnodup, hmem⟩
  upward h hsub hnodup hmem := by
    obtain ⟨weight, hweight, hle⟩ := weightedMajority_isQuorum.mp h
    obtain ⟨all, hall⟩ := Option.isSome_iff_exists.mp (weightOfSet_isSome hnodup hmem)
    refine weightedMajority_isQuorum.mpr ⟨all, hall, hle.trans ?_⟩
    rw [(weightOfSet_eq_sum hweight).2.2, (weightOfSet_eq_sum hall).2.2]
    refine Finset.sum_le_sum_of_subset fun node hnode => ?_
    rw [List.mem_toFinset] at hnode ⊢
    exact hsub node hnode

section Families

variable (strategy : QuorumStrategy) (familyA familyB : Role × Configuration)

/-- Every quorum of the one family meets every quorum of the other. -/
def Meet : Prop :=
  ∀ xs ys, strategy.isQuorum familyA.1 familyA.2 xs = true →
    strategy.isQuorum familyB.1 familyB.2 ys = true → ∃ node, node ∈ xs ∧ node ∈ ys

/-- **A witness against two families**: disjoint quorums, neither with a smaller quorum of its
family inside. -/
structure Witnesses (xs ys : List Nat) : Prop where
  left : strategy.isQuorum familyA.1 familyA.2 xs = true
  right : strategy.isQuorum familyB.1 familyB.2 ys = true
  disjoint : ∀ node ∈ xs, node ∉ ys
  leftMinimal : ∀ zs, zs.Sublist xs → zs ≠ xs → strategy.isQuorum familyA.1 familyA.2 zs = false
  rightMinimal : ∀ zs, zs.Sublist ys → zs ≠ ys → strategy.isQuorum familyB.1 familyB.2 zs = false

/-- The search of the refusal path by itself. The source panics where it comes to its end. -/
def thoroughPass (members : List Nat) : Option (List Nat × List Nat) :=
  let n := members.length
  let full := fullMask members
  (List.range (n + 1)).findSome? fun size =>
    (List.range (full + 1)).findSome? fun mask =>
      if popcount mask n ≠ size then none
      else if !strategy.isQuorum familyA.1 familyA.2 (membersOf members mask) then none
      else
        let complement := full ^^^ mask
        (List.range (n - size + 1)).findSome? fun inner =>
          (List.range (complement + 1)).findSome? fun sub =>
            if sub &&& complement ≠ sub ∨ popcount sub n ≠ inner then none
            else if strategy.isQuorum familyB.1 familyB.2 (membersOf members sub) then
              some (membersOf members mask, membersOf members sub)
            else none

theorem findDisjointPair_eq (members : List Nat) :
    findDisjointPair strategy familyA familyB members =
      if !disjointQuorumsExist strategy familyA familyB members then none
      else thoroughPass strategy familyA familyB members := rfl

end Families

section Search

variable {strategy : QuorumStrategy} {familyA familyB : Role × Configuration} {members : List Nat}

/-! ### The thorough pass, for any strategy -/

theorem lt_fullMask {mask : Nat} : mask < fullMask members + 1 ↔ mask < 2 ^ members.length := by
  have hpos : 0 < 2 ^ members.length := Nat.two_pow_pos _
  unfold fullMask
  omega

/-- A mask with a pair is a hit. -/
theorem thoroughPass_of_pair {mask sub : Nat} (hmask : mask < fullMask members + 1)
    (hleft : strategy.isQuorum familyA.1 familyA.2 (membersOf members mask) = true)
    (hsub : sub &&& (fullMask members ^^^ mask) = sub)
    (hright : strategy.isQuorum familyB.1 familyB.2 (membersOf members sub) = true) :
    (thoroughPass strategy familyA familyB members).isSome := by
  have hsum : popcount (fullMask members ^^^ mask) members.length +
      popcount mask members.length = members.length := Masks.ones_complement mask members.length
  have hones : popcount sub members.length ≤
      popcount (fullMask members ^^^ mask) members.length := by
    refine Masks.ones_mono fun i _ hbit => ?_
    rw [← hsub, Nat.testBit_and, Bool.and_eq_true] at hbit
    exact hbit.2
  have hle : sub ≤ fullMask members ^^^ mask := hsub ▸ Nat.and_le_right
  rw [thoroughPass, List.findSome?_isSome_iff]
  refine ⟨popcount mask members.length, List.mem_range.mpr (by omega), ?_⟩
  rw [List.findSome?_isSome_iff]
  refine ⟨mask, List.mem_range.mpr hmask, ?_⟩
  rw [if_neg (not_not.mpr rfl), hleft, if_neg (by simp), List.findSome?_isSome_iff]
  refine ⟨popcount sub members.length, List.mem_range.mpr (by omega), ?_⟩
  rw [List.findSome?_isSome_iff]
  refine ⟨sub, List.mem_range.mpr (by omega), ?_⟩
  rw [if_neg (by simp [hsub]), if_pos hright]
  rfl

/-- **The thorough pass never comes to its end once the scan has found a pair.** -/
theorem thoroughPass_isSome (h : disjointQuorumsExist strategy familyA familyB members = true) :
    (thoroughPass strategy familyA familyB members).isSome := by
  obtain ⟨mask, hmask, hboth⟩ := List.any_eq_true.mp h
  obtain ⟨hleft, hright⟩ := Bool.and_eq_true_iff.mp hboth
  exact thoroughPass_of_pair (List.mem_range.mp hmask) hleft (Nat.and_self _) hright

/-- What the pass returns: a mask, a mask of its complement, and no pair at a smaller size of
either. -/
theorem thoroughPass_eq_some {xs ys : List Nat}
    (h : thoroughPass strategy familyA familyB members = some (xs, ys)) :
    ∃ mask sub, mask < 2 ^ members.length ∧
      xs = membersOf members mask ∧ ys = membersOf members sub ∧
      strategy.isQuorum familyA.1 familyA.2 xs = true ∧
      strategy.isQuorum familyB.1 familyB.2 ys = true ∧
      sub &&& (fullMask members ^^^ mask) = sub ∧
      (∀ mask' sub', mask' < 2 ^ members.length →
        popcount mask' members.length < popcount mask members.length →
        sub' &&& (fullMask members ^^^ mask') = sub' →
        strategy.isQuorum familyA.1 familyA.2 (membersOf members mask') = true →
        strategy.isQuorum familyB.1 familyB.2 (membersOf members sub') = false) ∧
      ∀ sub', popcount sub' members.length < popcount sub members.length →
        sub' &&& (fullMask members ^^^ mask) = sub' →
        strategy.isQuorum familyB.1 familyB.2 (membersOf members sub') = false := by
  obtain ⟨size, hsize, h, hsmaller⟩ := Masks.findSome?_range h
  obtain ⟨mask, hmask, h, -⟩ := Masks.findSome?_range h
  split at h
  · cases h
  · rename_i hones
    split at h
    · cases h
    · rename_i hleft
      obtain ⟨inner, hinner, h, hlesser⟩ := Masks.findSome?_range h
      obtain ⟨sub, hsub, h, -⟩ := Masks.findSome?_range h
      split at h
      · cases h
      · rename_i hshape
        split at h
        · rename_i hright
          cases h
          rw [not_or, not_not, not_not] at hshape
          rw [not_not] at hones
          subst hones
          refine ⟨mask, sub, lt_fullMask.mp hmask, rfl, rfl, by simpa using hleft, hright,
            hshape.1, fun mask' sub' hmask' hlt hbelow hquorum => ?_, fun sub' hlt hbelow => ?_⟩
          · -- a pair at a smaller first size would have been the hit
            have hmiss := hsmaller _ hlt
            rw [List.findSome?_eq_none_iff] at hmiss
            have hmiss := hmiss mask' (List.mem_range.mpr (lt_fullMask.mpr hmask'))
            rw [if_neg (not_not.mpr rfl), hquorum, if_neg (by simp),
              List.findSome?_eq_none_iff] at hmiss
            have hsum : popcount (fullMask members ^^^ mask') members.length +
                popcount mask' members.length = members.length :=
              Masks.ones_complement mask' members.length
            have hcount : popcount sub' members.length ≤
                popcount (fullMask members ^^^ mask') members.length := by
              refine Masks.ones_mono fun i _ hbit => ?_
              rw [← hbelow, Nat.testBit_and, Bool.and_eq_true] at hbit
              exact hbit.2
            have hle : sub' ≤ fullMask members ^^^ mask' := hbelow ▸ Nat.and_le_right
            have hmiss := hmiss (popcount sub' members.length) (List.mem_range.mpr (by omega))
            rw [List.findSome?_eq_none_iff] at hmiss
            have hmiss := hmiss sub' (List.mem_range.mpr (by omega))
            rw [if_neg (by simp [hbelow])] at hmiss
            by_contra hne
            rw [Bool.not_eq_false] at hne
            rw [if_pos hne] at hmiss
            cases hmiss
          · have hmiss := hlesser _ (hshape.2 ▸ hlt)
            rw [List.findSome?_eq_none_iff] at hmiss
            have hle : sub' ≤ fullMask members ^^^ mask := hbelow ▸ Nat.and_le_right
            have hmiss := hmiss sub' (List.mem_range.mpr (by omega))
            rw [if_neg (by simp [hbelow])] at hmiss
            by_contra hne
            rw [Bool.not_eq_false] at hne
            rw [if_pos hne] at hmiss
            cases hmiss
        · cases h

/-- Bits that stay outside a mask stay outside a smaller one. -/
theorem and_complement_of_submask {mask mask' sub : Nat} (hmask : mask < 2 ^ members.length)
    (hbits : ∀ i, mask'.testBit i = true → mask.testBit i = true)
    (h : sub &&& (fullMask members ^^^ mask) = sub) :
    sub &&& (fullMask members ^^^ mask') = sub := by
  have hfull : ∀ i, mask.testBit i = true → (fullMask members).testBit i = true := by
    intro i hbit
    rw [fullMask, Nat.testBit_two_pow_sub_one, decide_eq_true_iff]
    by_contra hge
    rw [Nat.testBit_lt_two_pow (hmask.trans_le (Nat.pow_le_pow_right Nat.two_pos
      (Nat.le_of_not_lt hge)))] at hbit
    cases hbit
  refine Nat.eq_of_testBit_eq fun i => ?_
  have hi := congrArg (fun n => n.testBit i) h
  simp only [Nat.testBit_and, Nat.testBit_xor] at hi ⊢
  have hi' := hbits i
  have hin := hfull i
  revert hi hi' hin
  cases sub.testBit i <;> cases (fullMask members).testBit i <;> cases mask.testBit i <;>
    cases mask'.testBit i <;> simp

/-- **The pair of the thorough pass is a witness**, whatever the strategy. -/
theorem thoroughPass_witnesses (hnodup : members.Nodup) {xs ys : List Nat}
    (h : thoroughPass strategy familyA familyB members = some (xs, ys)) :
    Witnesses strategy familyA familyB xs ys := by
  obtain ⟨mask, sub, hmask, rfl, rfl, hleft, hright, hbelow, hsmaller, hlesser⟩ :=
    thoroughPass_eq_some h
  have hlen : ∀ m, (membersOf members m).length = popcount m members.length := fun m =>
    Masks.length_select members m
  have hproper : ∀ m zs, zs.Sublist (membersOf members m) → zs ≠ membersOf members m →
      zs.length < popcount m members.length := by
    intro m zs hsub hne
    rw [← hlen]
    exact Nat.lt_of_le_of_ne hsub.length_le fun heq => hne (hsub.eq_of_length heq)
  refine ⟨hleft, hright, fun node hin hin' => ?_, fun zs hzs hne => ?_, fun zs hzs hne => ?_⟩
  · obtain ⟨i, hi, hbit⟩ := Masks.mem_select.mp hin'
    rw [← hbelow, Nat.testBit_and, Bool.and_eq_true] at hbit
    exact membersOf_disjoint hnodup mask hin (Masks.mem_select.mpr ⟨i, hi, hbit.2⟩)
  · obtain ⟨mask', hmask', hsel, hones, hbits⟩ := Masks.exists_submask hnodup hzs
    by_contra hquorum
    rw [Bool.not_eq_false] at hquorum
    have hmiss := hsmaller mask' sub hmask'
      (show Masks.ones mask' members.length < _ from hones ▸ hproper mask zs hzs hne)
      (and_complement_of_submask hmask hbits hbelow)
      (show strategy.isQuorum _ _ (Masks.select members mask') = true from hsel ▸ hquorum)
    rw [hright] at hmiss
    cases hmiss
  · obtain ⟨sub', hsub', hsel, hones, hbits⟩ := Masks.exists_submask hnodup hzs
    have hbelow' : sub' &&& (fullMask members ^^^ mask) = sub' := by
      refine Nat.eq_of_testBit_eq fun i => ?_
      have hi := congrArg (fun n => n.testBit i) hbelow
      have hi' := hbits i
      simp only [Nat.testBit_and] at hi ⊢
      revert hi hi'
      cases sub'.testBit i <;> cases sub.testBit i <;> simp
    have hmiss := hlesser sub'
      (show Masks.ones sub' members.length < _ from hones ▸ hproper sub zs hzs hne) hbelow'
    rwa [show membersOf members sub' = zs from hsel] at hmiss

/-! ### The fast scan, under the contract -/

/-- **The scan is exact over the union of the memberships.** -/
theorem disjointQuorumsExist_iff (hs : strategy.Honours) (hnodup : members.Nodup)
    (hunion : ∀ node, node ∈ members ↔ node ∈ familyA.2.nodes ∨ node ∈ familyB.2.nodes) :
    disjointQuorumsExist strategy familyA familyB members = true ↔
      ¬Meet strategy familyA familyB := by
  constructor
  · intro h hmeet
    obtain ⟨mask, -, hboth⟩ := List.any_eq_true.mp h
    obtain ⟨hleft, hright⟩ := Bool.and_eq_true_iff.mp hboth
    obtain ⟨node, hnode, hnode'⟩ := hmeet _ _ hleft hright
    exact membersOf_disjoint hnodup mask hnode hnode'
  · intro h
    simp only [Meet, not_forall] at h
    obtain ⟨xs, ys, hleft, hright, hapart⟩ := h
    -- the first side takes every node the second one does not know
    have hside : ∀ (p : Nat → Bool) (family : Role × Configuration) (zs : List Nat),
        strategy.isQuorum family.1 family.2 zs = true →
        (∀ node ∈ zs, node ∈ members ∧ p node = true) →
        (∀ node ∈ members, p node = true → node ∈ family.2.nodes) →
        strategy.isQuorum family.1 family.2 (members.filter p) = true :=
      fun p family zs hquorum hsub hknown => hs.upward hquorum
        (fun node hmem => List.mem_filter.mpr (hsub node hmem)) (hnodup.filter p)
        (fun node hmem => hknown node (List.mem_filter.mp hmem).1 (List.mem_filter.mp hmem).2)
    let p : Nat → Bool := fun node => decide (node ∈ xs ∨ node ∉ familyB.2.nodes)
    have hfirst : strategy.isQuorum familyA.1 familyA.2 (members.filter p) = true := by
      refine hside p familyA xs hleft (fun node hmem => ?_) (fun node hmem hp => ?_)
      · exact ⟨(hunion node).mpr (.inl ((hs.strict hleft).2 node hmem)),
          decide_eq_true (.inl hmem)⟩
      · rcases of_decide_eq_true hp with hin | hout
        · exact (hs.strict hleft).2 node hin
        · exact ((hunion node).mp hmem).resolve_right hout
    have hsecond : strategy.isQuorum familyB.1 familyB.2 (members.filter fun x => !p x) =
        true := by
      refine hside _ familyB ys hright (fun node hmem => ?_) (fun node hmem hp => ?_)
      · have hknown := (hs.strict hright).2 node hmem
        refine ⟨(hunion node).mpr (.inr hknown), ?_⟩
        have hnot : ¬(node ∈ xs ∨ node ∉ familyB.2.nodes) := by
          rintro (hin | hout)
          · exact hapart ⟨node, hin, hmem⟩
          · exact hout hknown
        rw [show p node = false from decide_eq_false hnot]
        rfl
      · have hnot : ¬(node ∈ xs ∨ node ∉ familyB.2.nodes) := by simpa [p] using hp
        by_contra hout
        exact hnot (.inr hout)
    refine List.any_eq_true.mpr ⟨Masks.maskOf members p, List.mem_range.mpr
      (lt_fullMask.mpr (Masks.maskOf_lt members p)), Bool.and_eq_true_iff.mpr ⟨?_, ?_⟩⟩
    · change strategy.isQuorum _ _ (Masks.select members (Masks.maskOf members p)) = true
      rw [Masks.select_maskOf]
      exact hfirst
    · change strategy.isQuorum _ _ (Masks.select members
        ((2 ^ members.length - 1) ^^^ Masks.maskOf members p)) = true
      rw [Masks.complement_maskOf, Masks.select_maskOf]
      exact hsecond

/-- **One intersection, decided**: nothing when it holds, a witness when it fails. -/
theorem findDisjointPair_decides (hs : strategy.Honours) (hnodup : members.Nodup)
    (hunion : ∀ node, node ∈ members ↔ node ∈ familyA.2.nodes ∨ node ∈ familyB.2.nodes) :
    (findDisjointPair strategy familyA familyB members = none ∧
      Meet strategy familyA familyB) ∨
    ∃ xs ys, findDisjointPair strategy familyA familyB members = some (xs, ys) ∧
      ¬Meet strategy familyA familyB ∧ Witnesses strategy familyA familyB xs ys := by
  have hexact : disjointQuorumsExist strategy familyA familyB members = true ↔
      ¬Meet strategy familyA familyB := disjointQuorumsExist_iff hs hnodup hunion
  rw [findDisjointPair_eq]
  cases hscan : disjointQuorumsExist strategy familyA familyB members with
  | false =>
    refine .inl ⟨rfl, not_not.mp fun hnot => ?_⟩
    rw [hexact.mpr hnot] at hscan
    cases hscan
  | true =>
    obtain ⟨⟨xs, ys⟩, hpair⟩ := Option.isSome_iff_exists.mp (thoroughPass_isSome hscan)
    exact .inr ⟨xs, ys, hpair, hexact.mp hscan, thoroughPass_witnesses hnodup hpair⟩

end Search

/-! ### The verdicts -/

section Verdicts

variable (strategy : QuorumStrategy)

/-- The three intersections one era owes. -/
def EraObligations (c : Configuration) : Prop :=
  Meet strategy (.commit, c) (.viewChange, c) ∧ Meet strategy (.viewChange, c) (.viewChange, c) ∧
    Meet strategy (.fence, c) (.restart, c)

/-- The two intersections an era boundary owes: view changes of either side meet commits of the
other. -/
def TransitionObligations (current next : Configuration) : Prop :=
  Meet strategy (.viewChange, current) (.commit, next) ∧
    Meet strategy (.viewChange, next) (.commit, current)

/-- What the refusal of an era shows. -/
def EraWitness (c : Configuration) : QuorumError → Prop
  | .r1Violation commit viewChange =>
    Witnesses strategy (.commit, c) (.viewChange, c) commit viewChange
  | .selfIntersectionViolation role first second =>
    role = .viewChange ∧ Witnesses strategy (role, c) (role, c) first second
  | .fenceRestartViolation fence restart =>
    Witnesses strategy (.fence, c) (.restart, c) fence restart
  | .r2Violation _ _ _ | .membershipCapExceeded _ => False

/-- What the refusal of a transition shows. -/
def TransitionWitness (current next : Configuration) : QuorumError → Prop
  | .r2Violation .forward viewChange commit =>
    Witnesses strategy (.viewChange, current) (.commit, next) viewChange commit
  | .r2Violation .reverse viewChange commit =>
    Witnesses strategy (.viewChange, next) (.commit, current) viewChange commit
  | .r1Violation _ _ | .selfIntersectionViolation _ _ _ | .fenceRestartViolation _ _
  | .membershipCapExceeded _ => False

end Verdicts

variable {strategy : QuorumStrategy}

theorem decided_ok {result : Except QuorumError Unit} {p : Prop} {w : QuorumError → Prop}
    (h : result = .ok ()) (hp : p) :
    (result = .ok () ↔ p) ∧ ∀ error, result = .error error → w error := by
  subst h
  exact ⟨⟨fun _ => hp, fun _ => rfl⟩, fun error h => nomatch h⟩

theorem decided_error {result : Except QuorumError Unit} {p : Prop} {w : QuorumError → Prop}
    (error : QuorumError) (h : result = .error error) (hp : ¬p) (hw : w error) :
    (result = .ok () ↔ p) ∧ ∀ other, result = .error other → w other := by
  subst h
  refine ⟨⟨fun h => (nomatch h), fun h => absurd h hp⟩, fun other h => ?_⟩
  cases h
  exact hw

theorem validateEra_decides (hs : strategy.Honours) {c : Configuration} (hc : c.WellFormed) :
    (validateEra strategy c = .ok () ↔ EraObligations strategy c) ∧
      ∀ error, validateEra strategy c = .error error → EraWitness strategy c error := by
  have hdecides : ∀ role role',
      (findDisjointPair strategy (role, c) (role', c) (c.order.map Member.node) = none ∧
        Meet strategy (role, c) (role', c)) ∨
      ∃ xs ys, findDisjointPair strategy (role, c) (role', c) (c.order.map Member.node) =
        some (xs, ys) ∧ ¬Meet strategy (role, c) (role', c) ∧
          Witnesses strategy (role, c) (role', c) xs ys := fun role role' =>
    findDisjointPair_decides hs hc.nodup fun node => (or_self_iff).symm
  rcases hdecides .commit .viewChange with ⟨hr1, hmeet⟩ | ⟨xs, ys, hr1, hmiss, hwitness⟩
  · rcases hdecides .viewChange .viewChange with ⟨hself, hmeet'⟩ | ⟨xs, ys, hself, hmiss, hwitness⟩
    · rcases hdecides .fence .restart with ⟨hfence, hmeet''⟩ | ⟨xs, ys, hfence, hmiss, hwitness⟩
      · refine decided_ok ?_ ⟨hmeet, hmeet', hmeet''⟩
        unfold validateEra
        simp only [checkCap_ok hc.capped, hr1, hself, hfence]
        rfl
      · refine decided_error (.fenceRestartViolation xs ys) ?_ (fun h => hmiss h.2.2) hwitness
        unfold validateEra
        simp only [checkCap_ok hc.capped, hr1, hself, hfence]
        rfl
    · refine decided_error (.selfIntersectionViolation .viewChange xs ys) ?_
        (fun h => hmiss h.2.1) ⟨rfl, hwitness⟩
      unfold validateEra
      simp only [checkCap_ok hc.capped, hr1, hself]
      rfl
  · refine decided_error (.r1Violation xs ys) ?_ (fun h => hmiss h.1) hwitness
    unfold validateEra
    simp only [checkCap_ok hc.capped, hr1]
    rfl

theorem validateTransition_decides (hs : strategy.Honours) {current next : Configuration}
    (hcurrent : current.WellFormed) (hnext : next.WellFormed)
    (hcap : (gateMembers current next).length ≤ maxMembers) :
    (validateTransition strategy current next = .ok () ↔
      TransitionObligations strategy current next) ∧
    ∀ error, validateTransition strategy current next = .error error →
      TransitionWitness strategy current next error := by
  have hnodup : (gateMembers current next).Nodup := List.nodup_dedup _
  have hforward := @findDisjointPair_decides strategy (.viewChange, current) (.commit, next) _
    hs hnodup fun node => mem_gateMembers
  have hreverse := @findDisjointPair_decides strategy (.viewChange, next) (.commit, current) _
    hs hnodup fun node => mem_gateMembers.trans or_comm
  have hroom : ¬maxMembers < (gateMembers current next).length := Nat.not_lt.mpr hcap
  unfold gateMembers at hforward hreverse hroom
  rcases hforward with ⟨hfind, hmeet⟩ | ⟨xs, ys, hfind, hmiss, hwitness⟩
  · rcases hreverse with ⟨hfind', hmeet'⟩ | ⟨xs, ys, hfind', hmiss, hwitness⟩
    · refine decided_ok ?_ ⟨hmeet, hmeet'⟩
      unfold validateTransition
      simp only [checkCap_ok hcurrent.capped, checkCap_ok hnext.capped, if_neg hroom, hfind, hfind']
      rfl
    · refine decided_error (.r2Violation .reverse xs ys) ?_ (fun h => hmiss h.2) hwitness
      unfold validateTransition
      simp only [checkCap_ok hcurrent.capped, checkCap_ok hnext.capped, if_neg hroom, hfind, hfind']
      rfl
  · refine decided_error (.r2Violation .forward xs ys) ?_ (fun h => hmiss h.1) hwitness
    unfold validateTransition
    simp only [checkCap_ok hcurrent.capped, checkCap_ok hnext.capped, if_neg hroom, hfind]
    rfl

/-- **The gate decides intersection.** Under the contract each verdict is exact and each refusal
carries a minimal witness; and under any strategy the thorough pass ends with a pair whenever
the scan found one. -/
theorem gate_decides (hs : strategy.Honours) {current next : Configuration}
    (hcurrent : current.nodes.Nodup) (hnext : next.nodes.Nodup)
    (hcap : (gateMembers current next).length ≤ maxMembers) :
    ((validateTransition strategy current next = .ok () ↔
        TransitionObligations strategy current next) ∧
      ∀ error, validateTransition strategy current next = .error error →
        TransitionWitness strategy current next error) ∧
    ((validateEra strategy current = .ok () ↔ EraObligations strategy current) ∧
      ∀ error, validateEra strategy current = .error error →
        EraWitness strategy current error) ∧
    ∀ (other : QuorumStrategy) (familyA familyB : Role × Configuration) (members : List Nat),
      disjointQuorumsExist other familyA familyB members = true →
        (thoroughPass other familyA familyB members).isSome := by
  have hle : ∀ c : Configuration, c.nodes.Nodup → (∀ node ∈ c.nodes, node ∈
      gateMembers current next) → c.WellFormed := fun c hnodup hsub =>
    ⟨hnodup, ((List.subperm_of_subset hnodup hsub).length_le).trans hcap⟩
  have hc := hle current hcurrent fun node hmem => mem_gateMembers.mpr (.inl hmem)
  have hn := hle next hnext fun node hmem => mem_gateMembers.mpr (.inr hmem)
  exact ⟨validateTransition_decides hs hc hn hcap, validateEra_decides hs hc,
    fun other familyA familyB members hscan => thoroughPass_isSome hscan⟩

theorem gate_decides_increment :
    TransitionObligations weightedMajority { era := 1, order := [⟨1, 1⟩, ⟨2, 1⟩, ⟨3, 1⟩] }
      { era := 2, order := [⟨1, 1⟩, ⟨2, 1⟩, ⟨3, 2⟩] } :=
  (@gate_decides weightedMajority weightedMajority_honours
    { era := 1, order := [⟨1, 1⟩, ⟨2, 1⟩, ⟨3, 1⟩] } { era := 2, order := [⟨1, 1⟩, ⟨2, 1⟩, ⟨3, 2⟩] }
    (by decide) (by decide) (by decide)).1.1.mp (by decide)

end UvrrCore
