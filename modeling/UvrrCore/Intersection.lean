import UvrrCore.Majority
import UvrrCore.Quorum

/-!
# Quorums of consecutive configurations

A configuration made by the fold lists each node once and at most `maxMembers` of them, so its
weighted majorities are strict majorities of one weight function. An accepted operation moves at
most one unit of that weight, or scales all of it, and so the majorities before and after it
share a member. The gate therefore finds no disjoint pair; the one thing it can still refuse is
the size of the union of the two memberships.
-/

namespace UvrrCore

namespace Configuration

/-- The nodes of the configuration, in order. -/
def nodes (c : Configuration) : List Nat := c.order.map Member.node

/-- The weight of a node, zero for one that is no member. -/
def weightAt (c : Configuration) (node : Nat) : Nat := (c.weightOf node).getD 0

/-- Configurations the fold makes from nothing, by operations it accepts. -/
inductive Reachable : Configuration → Prop
  | void : Reachable void
  | apply {c next : Configuration} {op : SystemOperation} {slot : Nat} :
      Reachable c → c.apply op slot = .ok next → Reachable next

/-- What every accepted operation keeps: no node twice, and no more nodes than the cap. -/
structure WellFormed (c : Configuration) : Prop where
  nodup : c.nodes.Nodup
  capped : c.nodes.length ≤ maxMembers

/-! ### Weights by node -/

theorem weightOf_eq_none {c : Configuration} {node : Nat} :
    c.weightOf node = none ↔ node ∉ c.nodes := by
  simp [weightOf, nodes]

theorem weightAt_eq_zero {c : Configuration} {node : Nat} (h : node ∉ c.nodes) :
    c.weightAt node = 0 := by
  rw [weightAt, weightOf_eq_none.mpr h]
  rfl

theorem weightAt_of_mem {c : Configuration} (hnodup : c.nodes.Nodup) {member : Member}
    (hmem : member ∈ c.order) : c.weightAt member.node = member.weight := by
  have hfind : c.order.find? (fun other => other.node == member.node) = some member := by
    have hpairwise := List.pairwise_map.mp hnodup
    generalize c.order = order at hmem hpairwise
    induction order with
    | nil => cases hmem
    | cons first rest ih =>
      obtain ⟨hfirst, hrest⟩ := List.pairwise_cons.mp hpairwise
      rw [List.find?_cons]
      rcases List.mem_cons.mp hmem with rfl | hmem
      · simp
      · have hne : (first.node == member.node) = false := by simpa using hfirst member hmem
        rw [hne]
        exact ih hmem hrest
  rw [weightAt, weightOf, hfind]
  rfl

/-- The total is the weight of all nodes, and of any larger set. -/
theorem total_eq_sum {c : Configuration} (hnodup : c.nodes.Nodup) {s : Finset Nat}
    (hs : ∀ node ∈ c.nodes, node ∈ s) : c.total = ∑ node ∈ s, c.weightAt node := by
  have hsub : c.nodes.toFinset ⊆ s := fun node hmem => hs node (List.mem_toFinset.mp hmem)
  have houtside : ∀ node ∈ s, node ∉ c.nodes.toFinset → c.weightAt node = 0 :=
    fun node _ hmem => weightAt_eq_zero fun hin => hmem (List.mem_toFinset.mpr hin)
  rw [← Finset.sum_subset hsub houtside, List.sum_toFinset _ hnodup, total, nodes,
    List.map_map]
  congr 1
  apply List.map_congr_left
  intro member hmem
  exact (weightAt_of_mem hnodup hmem).symm

theorem weightOfSet_eq_sum {c : Configuration} {members : List Nat} {weight : Nat}
    (h : c.weightOfSet members = some weight) :
    members.Nodup ∧ (∀ node ∈ members, node ∈ c.nodes) ∧
      weight = ∑ node ∈ members.toFinset, c.weightAt node := by
  induction members generalizing weight with
  | nil =>
    cases h
    exact ⟨List.nodup_nil, by simp, by simp⟩
  | cons node rest ih =>
    rw [weightOfSet] at h
    split at h
    · cases h
    · rename_i hnew
      split at h
      · rename_i own sum hown hsum
        cases h
        obtain ⟨hnodup, hmem, hweight⟩ := ih hsum
        have hnew' : node ∉ rest := by simpa using hnew
        have hnode : node ∈ c.nodes := by
          by_contra hout
          rw [weightOf_eq_none.mpr hout] at hown
          cases hown
        refine ⟨List.nodup_cons.mpr ⟨hnew', hnodup⟩, ?_, ?_⟩
        · intro other hother
          rcases List.mem_cons.mp hother with rfl | hother
          · exact hnode
          · exact hmem other hother
        · rw [List.toFinset_cons, Finset.sum_insert (by simpa using hnew'), ← hweight,
            weightAt, hown]
          rfl
      · cases h

/-- A weighted quorum is a strict majority of the weight, over any set that holds the nodes. -/
theorem isMajority_of_isQuorum {c : Configuration} (hnodup : c.nodes.Nodup) {s : Finset Nat}
    (hs : ∀ node ∈ c.nodes, node ∈ s) {role : Role} {members : List Nat}
    (h : weightedMajority.isQuorum role c members = true) :
    Majority.IsMajority c.weightAt s members.toFinset := by
  obtain ⟨weight, hweight, hle⟩ := weightedMajority_isQuorum.mp h
  obtain ⟨-, hmem, hsum⟩ := weightOfSet_eq_sum hweight
  refine ⟨fun node hnode => hs node (hmem node (List.mem_toFinset.mp hnode)), ?_⟩
  rw [← total_eq_sum hnodup hs, ← hsum]
  omega

/-! ### What one operation does to the weights -/

theorem findIdx?_node {order : List Member} {node index : Nat}
    (h : (order.findIdx? fun member => member.node == node) = some index) :
    ∃ member, order[index]? = some member ∧ member.node = node := by
  obtain ⟨hlt, hnode, -⟩ := List.findIdx?_eq_some_iff_getElem.mp h
  exact ⟨order[index], List.getElem?_eq_getElem hlt, by simpa using hnode⟩

theorem nodes_setWeight (c : Configuration) (index weight : Nat) :
    (c.setWeight index weight).nodes = c.nodes := by
  unfold nodes setWeight
  generalize c.order = order
  induction order generalizing index with
  | nil => simp
  | cons first rest ih =>
    cases index with
    | zero => simp
    | succ index => simpa using ih index

theorem weightOf_setWeight {c : Configuration} {node index : Nat} (weight other : Nat)
    (h : (c.order.findIdx? fun member => member.node == node) = some index) :
    (c.setWeight index weight).weightOf other =
      if other = node then some weight else c.weightOf other := by
  unfold weightOf setWeight
  generalize c.order = order at h
  induction order generalizing index with
  | nil => cases h
  | cons first rest ih =>
    rw [List.findIdx?_cons] at h
    by_cases hfirst : first.node = node
    · rw [if_pos (by simpa using hfirst)] at h
      cases h
      by_cases hother : other = node
      · simp [hfirst, hother]
      · have hne : first.node ≠ other := fun heq => hother (heq.symm.trans hfirst)
        simp [hne, hother]
    · rw [if_neg (by simpa using hfirst)] at h
      obtain ⟨index', hindex, rfl⟩ := Option.map_eq_some_iff.mp h
      have hrest := ih hindex
      simp only [List.modify_succ_cons, List.find?_cons] at hrest ⊢
      by_cases hat : first.node = other
      · have hne : other ≠ node := fun heq => hfirst (hat.trans heq)
        simp [hat, hne]
      · rw [show (first.node == other) = false from by simpa using hat]
        exact hrest

/-- Members mapped one by one keep their nodes, and each weight is related to its image. -/
theorem mapM_weights {f : Member → Except ConfigError Member} (related : Nat → Nat → Prop)
    (hzero : related 0 0)
    (hf : ∀ member member', f member = .ok member' →
      member'.node = member.node ∧ related member.weight member'.weight)
    {order order' : List Member} (h : order.mapM f = .ok order') :
    order'.map Member.node = order.map Member.node ∧
      ∀ node, related
        (((order.find? fun member => member.node == node).map Member.weight).getD 0)
        (((order'.find? fun member => member.node == node).map Member.weight).getD 0) := by
  induction order generalizing order' with
  | nil =>
    cases h
    exact ⟨rfl, fun node => hzero⟩
  | cons first rest ih =>
    rw [List.mapM_cons] at h
    obtain ⟨first', hfirst, h⟩ := bind_eq_ok.mp h
    obtain ⟨rest', hrest, h⟩ := bind_eq_ok.mp h
    cases pure_eq_ok.mp h
    obtain ⟨hnode, hweight⟩ := hf first first' hfirst
    obtain ⟨hnodes, hweights⟩ := ih hrest
    refine ⟨by simp [hnode, hnodes], fun node => ?_⟩
    simp only [List.find?_cons, hnode]
    cases first.node == node with
    | true => exact hweight
    | false => exact hweights node

theorem weightAt_insert {c next : Configuration} {node position : Nat} (hnew : node ∉ c.nodes)
    (hposition : position ≤ c.len)
    (horder : next.order = c.order.insertIdx position { node := node, weight := 0 })
    (other : Nat) : next.weightAt other = c.weightAt other := by
  unfold weightAt weightOf
  rw [horder]
  unfold len at hposition
  have hnew' : ∀ member ∈ c.order, member.node ≠ node := by
    intro member hmem heq
    exact hnew (List.mem_map.mpr ⟨member, hmem, heq⟩)
  clear horder hnew
  generalize c.order = order at *
  induction order generalizing position with
  | nil =>
    cases position with
    | zero => by_cases h : node = other <;> simp [h]
    | succ position => simp at hposition
  | cons first rest ih =>
    cases position with
    | zero =>
      by_cases h : node = other
      · subst h
        have hnone : (first :: rest).find? (fun member => member.node == node) = none :=
          List.find?_eq_none.mpr fun member hmem => by simpa using hnew' member hmem
        rw [hnone, List.insertIdx_zero, List.find?_cons]
        simp
      · simp [h]
    | succ position =>
      rw [List.insertIdx_succ_cons, List.find?_cons, List.find?_cons]
      cases first.node == other with
      | true => rfl
      | false =>
        exact ih (by simpa using hposition) fun member hmem =>
          hnew' member (List.mem_cons_of_mem _ hmem)

theorem weightAt_erase {c next : Configuration} {node index : Nat} (hnodup : c.nodes.Nodup)
    (hindex : (c.order.findIdx? fun member => member.node == node) = some index)
    (hzero : c.weightAt node = 0) (horder : next.order = c.order.eraseIdx index) (other : Nat) :
    next.weightAt other = c.weightAt other := by
  unfold weightAt weightOf at *
  unfold nodes at hnodup
  rw [horder]
  clear horder
  generalize c.order = order at *
  induction order generalizing index with
  | nil => cases hindex
  | cons first rest ih =>
    rw [List.map_cons, List.nodup_cons] at hnodup
    rw [List.findIdx?_cons] at hindex
    by_cases hfirst : first.node = node
    · rw [if_pos (by simpa using hfirst)] at hindex
      cases hindex
      rw [List.eraseIdx_cons_zero, List.find?_cons]
      by_cases hother : first.node = other
      · -- the erased node is not listed again, and it weighed nothing
        have hnone : rest.find? (fun member => member.node == other) = none := by
          refine List.find?_eq_none.mpr fun member hmem => ?_
          intro heq
          exact hnodup.1 (List.mem_map.mpr ⟨member, hmem, (by simpa using heq : member.node =
            other).trans hother.symm⟩)
        rw [List.find?_cons, show (first.node == node) = true from by simpa using hfirst]
          at hzero
        rw [hnone, show (first.node == other) = true from by simpa using hother]
        exact hzero.symm
      · rw [show (first.node == other) = false from by simpa using hother]
    · rw [if_neg (by simpa using hfirst)] at hindex
      obtain ⟨index', hindex', rfl⟩ := Option.map_eq_some_iff.mp hindex
      rw [List.find?_cons, show (first.node == node) = false from by simpa using hfirst] at hzero
      rw [List.eraseIdx_cons_succ, List.find?_cons, List.find?_cons]
      cases first.node == other with
      | true => rfl
      | false => exact ih hnodup.2 hindex' hzero

/-- What one operation does to the nodes and their weights. -/
inductive Change (c next : Configuration) : SystemOperation → Prop
  | reweigh {op : SystemOperation} {node : Nat} (hop : op = .increment node ∨ op = .decrement node)
      (hnodes : next.nodes = c.nodes)
      (hrest : ∀ other, other ≠ node → next.weightAt other = c.weightAt other)
      (hunit : next.weightAt node ≤ c.weightAt node + 1 ∧
        c.weightAt node ≤ next.weightAt node + 1) : Change c next op
  | double (hnodes : next.nodes = c.nodes)
      (hweight : ∀ node, next.weightAt node = 2 * c.weightAt node) : Change c next .double
  | halve (hnodes : next.nodes = c.nodes)
      (hweight : ∀ node, c.weightAt node = 2 * next.weightAt node) : Change c next .halve
  | join {node position : Nat} (hnew : node ∉ c.nodes) (hroom : c.nodes.length < maxMembers)
      (hnodes : next.nodes = c.nodes.insertIdx position node) (hposition : position ≤ c.nodes.length)
      (hweight : ∀ other, next.weightAt other = c.weightAt other) :
      Change c next (.join node position)
  | leave {node : Nat} (hmem : node ∈ c.nodes) (hnodes : next.nodes = c.nodes.erase node)
      (hweight : ∀ other, next.weightAt other = c.weightAt other) : Change c next (.leave node)
  | nominate {fromView offset : Nat} (hsame : next = c) :
      Change c next (.nominate fromView offset)

/-- Reweighing the node found at an index. -/
theorem change_setWeight {c : Configuration} {op : SystemOperation} {node index weight : Nat}
    (hop : op = .increment node ∨ op = .decrement node)
    (hindex : (c.order.findIdx? fun member => member.node == node) = some index)
    (hunit : weight ≤ c.weightAt node + 1 ∧ c.weightAt node ≤ weight + 1) :
    Change c (c.setWeight index weight) op := by
  have hweight : ∀ other, (c.setWeight index weight).weightAt other =
      if other = node then weight else c.weightAt other := by
    intro other
    rw [weightAt, weightOf_setWeight weight other hindex]
    split <;> rfl
  refine .reweigh hop (nodes_setWeight c index weight) ?_ ?_
  · intro other hother
    rw [hweight, if_neg hother]
  · rw [hweight, if_pos rfl]
    exact hunit

theorem nodes_eraseIdx {c : Configuration} {node index : Nat}
    (h : (c.order.findIdx? fun member => member.node == node) = some index) :
    (c.order.eraseIdx index).map Member.node = c.nodes.erase node := by
  unfold nodes
  generalize c.order = order at h
  induction order generalizing index with
  | nil => cases h
  | cons first rest ih =>
    rw [List.findIdx?_cons] at h
    by_cases hfirst : first.node = node
    · rw [if_pos (by simpa using hfirst)] at h
      cases h
      simp [hfirst]
    · rw [if_neg (by simpa using hfirst)] at h
      obtain ⟨index', hindex', rfl⟩ := Option.map_eq_some_iff.mp h
      simp only [List.eraseIdx_cons_succ, List.map_cons]
      rw [ih hindex', List.erase_cons_tail (by simpa using hfirst)]

theorem doubled_ok {member member' : Member} (h : doubled member = .ok member') :
    member'.node = member.node ∧ member'.weight = 2 * member.weight := by
  unfold doubled at h
  split at h
  · cases h
    exact ⟨rfl, Nat.mul_comm _ _⟩
  · cases h

theorem halved_ok {member member' : Member} (h : halved member = .ok member') :
    member'.node = member.node ∧ member.weight = 2 * member'.weight := by
  unfold halved at h
  split at h
  · rename_i heven
    cases h
    exact ⟨rfl, by show member.weight = 2 * (member.weight / 2); omega⟩
  · cases h

/-- **An operation accepted inside an era is one of the six changes.** -/
theorem applyInEra_change {c next : Configuration} {op : SystemOperation}
    (hnodup : c.nodes.Nodup) (h : c.applyInEra op = .ok next) :
    Change c next op ∧ next.era = c.era := by
  cases op with
  | void => cases h
  | init order => cases h
  | batch ops => cases h
  | increment node =>
    rw [applyInEra] at h
    split at h
    · cases h
    · rename_i index hindex
      dsimp only at h
      split at h
      · cases h
      · cases h
        exact ⟨change_setWeight (.inl rfl) hindex ⟨Nat.le_refl _, by
          show c.weightAt node ≤ c.weightAt node + 1 + 1; omega⟩, rfl⟩
  | decrement node =>
    rw [applyInEra] at h
    split at h
    · cases h
    · rename_i index hindex
      dsimp only at h
      split at h
      · cases h
      · split at h
        · cases h
        · cases h
          refine ⟨change_setWeight (.inr rfl) hindex ?_, rfl⟩
          show c.weightAt node - 1 ≤ c.weightAt node + 1 ∧ c.weightAt node ≤ c.weightAt node - 1 + 1
          omega
  | double =>
    rw [applyInEra] at h
    obtain ⟨order, horder, h⟩ := bind_eq_ok.mp h
    cases pure_eq_ok.mp h
    obtain ⟨hnodes, hweight⟩ := mapM_weights
      (fun old new => new = 2 * old) rfl (fun _ _ => doubled_ok) horder
    exact ⟨.double hnodes hweight, rfl⟩
  | halve =>
    rw [applyInEra] at h
    obtain ⟨order, horder, h⟩ := bind_eq_ok.mp h
    cases pure_eq_ok.mp h
    obtain ⟨hnodes, hweight⟩ := mapM_weights
      (fun old new => old = 2 * new) rfl (fun _ _ => halved_ok) horder
    exact ⟨.halve hnodes hweight, rfl⟩
  | join node position =>
    rw [applyInEra] at h
    split at h
    · cases h
    · rename_i hnew
      split at h
      · cases h
      · rename_i hroom
        split at h
        · cases h
        · rename_i hposition
          cases h
          have hnew' : node ∉ c.nodes := by
            intro hmem
            obtain ⟨member, hmem, heq⟩ := List.mem_map.mp hmem
            exact hnew (List.any_eq_true.mpr ⟨member, hmem, by simpa using heq⟩)
          refine ⟨.join hnew' (by simpa [nodes] using hroom) (List.map_insertIdx _ _ _ _)
            (by simpa [nodes, len] using hposition) ?_, rfl⟩
          exact weightAt_insert hnew' (by omega) rfl
  | leave node =>
    rw [applyInEra] at h
    split at h
    · cases h
    · rename_i index hindex
      split at h
      · cases h
      · rename_i hweight
        cases h
        have hzero : c.weightAt node = 0 := by
          rw [weightAt]
          exact not_not.mp hweight
        obtain ⟨member, hmember, hnode⟩ := findIdx?_node hindex
        refine ⟨.leave ?_ (nodes_eraseIdx hindex) (weightAt_erase hnodup hindex hzero rfl), rfl⟩
        exact List.mem_map.mpr ⟨member, List.mem_of_getElem? hmember, hnode⟩
  | nominate fromView offset =>
    rw [applyInEra] at h
    split at h
    · cases h
    · cases h
      exact ⟨.nominate rfl, rfl⟩

theorem Change.nodup {c next : Configuration} {op : SystemOperation} (h : Change c next op)
    (hnodup : c.nodes.Nodup) : next.nodes.Nodup := by
  cases h with
  | reweigh hop hnodes hrest hunit => exact hnodes ▸ hnodup
  | double hnodes hweight => exact hnodes ▸ hnodup
  | halve hnodes hweight => exact hnodes ▸ hnodup
  | @join node position hnew hroom hnodes hposition hweight =>
    rw [hnodes]
    exact (List.perm_insertIdx node c.nodes hposition).nodup_iff.mpr
      (List.nodup_cons.mpr ⟨hnew, hnodup⟩)
  | leave hmem hnodes hweight => exact hnodes ▸ hnodup.erase _
  | nominate hsame => exact hsame ▸ hnodup

theorem Change.wellFormed {c next : Configuration} {op : SystemOperation} (h : Change c next op)
    (hc : c.WellFormed) : next.WellFormed := by
  refine ⟨h.nodup hc.nodup, ?_⟩
  cases h with
  | reweigh hop hnodes hrest hunit => exact hnodes ▸ hc.capped
  | double hnodes hweight => exact hnodes ▸ hc.capped
  | halve hnodes hweight => exact hnodes ▸ hc.capped
  | join hnew hroom hnodes hposition hweight =>
    rw [hnodes, List.length_insertIdx_of_le_length hposition]
    exact hroom
  | leave hmem hnodes hweight =>
    rw [hnodes]
    exact Nat.le_trans List.length_erase_le hc.capped
  | nominate hsame => exact hsame ▸ hc.capped

/-! ### What an accepted establishing operation does -/

/-- The nodes a run of operations brings in and does not remove again. -/
def entrantsOf (entered : List Nat) : List SystemOperation → List Nat
  | [] => entered
  | .join node _ :: rest => entrantsOf (node :: entered) rest
  | .leave node :: rest => entrantsOf (entered.filter fun other => other != node) rest
  | _ :: rest => entrantsOf entered rest

/-- The nodes an establishing operation brings in. -/
def entrants : SystemOperation → List Nat
  | .init order => order
  | .batch ops => entrantsOf [] ops
  | op => entrantsOf [] [op]

/-- After a run of operations the nodes are old ones and entrants, and every entrant is one. -/
theorem applyAllInEra_nodes (start : Configuration) {c next : Configuration}
    {ops : List SystemOperation} (entered : List Nat) (hc : c.WellFormed)
    (h : c.applyAllInEra ops = .ok next)
    (hentered : ∀ node ∈ entered, node ∈ c.nodes)
    (hnodes : ∀ node ∈ c.nodes, node ∈ start.nodes ∨ node ∈ entered) :
    next.WellFormed ∧ (∀ node ∈ entrantsOf entered ops, node ∈ next.nodes) ∧
      ∀ node ∈ next.nodes, node ∈ start.nodes ∨ node ∈ entrantsOf entered ops := by
  induction ops generalizing c entered with
  | nil =>
    cases h
    exact ⟨hc, hentered, hnodes⟩
  | cons op rest ih =>
    rw [applyAllInEra] at h
    obtain ⟨middle, hmiddle, hrun⟩ := bind_eq_ok.mp h
    have hchange := (applyInEra_change hc.nodup hmiddle).1
    have hmiddle' := hchange.wellFormed hc
    cases hchange with
    | reweigh hop hsame hrest hunit =>
      have hentered' : ∀ node ∈ entered, node ∈ middle.nodes := by rwa [hsame]
      have hnodes' : ∀ node ∈ middle.nodes, node ∈ start.nodes ∨ node ∈ entered := by
        rwa [hsame]
      rcases hop with rfl | rfl
      · exact ih _ hmiddle' hrun hentered' hnodes'
      · exact ih _ hmiddle' hrun hentered' hnodes'
    | double hsame hweight => exact ih _ hmiddle' hrun (by rwa [hsame]) (by rwa [hsame])
    | halve hsame hweight => exact ih _ hmiddle' hrun (by rwa [hsame]) (by rwa [hsame])
    | nominate hsame => exact ih _ hmiddle' hrun (by rwa [hsame]) (by rwa [hsame])
    | @join node position hnew hroom hsame hposition hweight =>
      have hmem : ∀ other, other ∈ middle.nodes ↔ other = node ∨ other ∈ c.nodes := by
        intro other
        rw [hsame, List.mem_insertIdx hposition]
      refine ih _ hmiddle' hrun (fun other hother => ?_) (fun other hother => ?_)
      · rw [hmem]
        exact (List.mem_cons.mp hother).imp id (hentered other)
      · rcases (hmem other).mp hother with rfl | hother
        · exact .inr List.mem_cons_self
        · exact (hnodes other hother).imp id (List.mem_cons_of_mem _)
    | @leave node hmem hsame hweight =>
      have hother : ∀ other, other ∈ middle.nodes ↔ other ≠ node ∧ other ∈ c.nodes := by
        intro other
        rw [hsame, hc.nodup.mem_erase_iff]
      refine ih _ hmiddle' hrun (fun other hin => ?_) (fun other hin => ?_)
      · obtain ⟨hin, hne⟩ := List.mem_filter.mp hin
        exact (hother other).mpr ⟨by simpa using hne, hentered other hin⟩
      · obtain ⟨hne, hin⟩ := (hother other).mp hin
        exact (hnodes other hin).imp id fun hin =>
          List.mem_filter.mpr ⟨hin, by simpa using hne⟩

/-- **What an accepted establishing operation is.** -/
inductive Established (c next : Configuration) : SystemOperation → Prop
  | void (hempty : c.order = []) (hnext : next = Configuration.void) : Established c next .void
  | init {order : List Nat} (hempty : c.order = []) (hnodup : order.Nodup)
      (hcapped : order.length ≤ maxMembers)
      (hnext : next =
        { era := 1, order := order.map fun node => { node := node, weight := 1 } }) :
      Established c next (.init order)
  | batch {ops : List SystemOperation} {folded : Configuration} {era : Nat}
      (hfolded : c.applyAllInEra ops = .ok folded) (hera : Era.next c.era = some era)
      (hunit : ops = [.double] ∨ ops = [.halve] ∨ c.massMoved folded ≤ 1)
      (hnext : next = { folded with era := era }) : Established c next (.batch ops)
  | single {op : SystemOperation} {folded : Configuration} {era : Nat}
      (hnominate : op.isNominate = false) (hfolded : c.applyInEra op = .ok folded)
      (hera : Era.next c.era = some era) (hnext : next = { folded with era := era }) :
      Established c next op

theorem successorEra_ok {c : Configuration} {era : Nat} (h : c.successorEra = .ok era) :
    Era.next c.era = some era := by
  unfold successorEra at h
  split at h
  · cases h
  · split at h
    · rename_i next hnext
      cases h
      exact hnext
    · cases h

theorem solitary_scaling {ops : List SystemOperation}
    (h : (ops.length == 1 && ops.any SystemOperation.isScaling) = true) :
    ops = [.double] ∨ ops = [.halve] := by
  rw [Bool.and_eq_true, beq_iff_eq] at h
  obtain ⟨op, rfl⟩ := List.length_eq_one_iff.mp h.1
  cases op <;> simp [SystemOperation.isScaling] at h ⊢

theorem apply_established {c next : Configuration} {op : SystemOperation} {slot : Nat}
    (h : c.apply op slot = .ok next) : Established c next op := by
  have hsingle : (do
      let era ← c.successorEra
      let folded ← c.applyInEra op
      return { folded with era := era }) = Except.ok next → op.isNominate = false →
      Established c next op := by
    intro h hnominate
    obtain ⟨era, hera, h⟩ := bind_eq_ok.mp h
    obtain ⟨folded, hfolded, h⟩ := bind_eq_ok.mp h
    exact .single hnominate hfolded (successorEra_ok hera) (pure_eq_ok.mp h).symm
  cases op with
  | void =>
    rw [apply] at h
    split at h
    · cases h
    · rename_i hempty
      split at h
      · cases h
      · cases h
        exact .void (by simpa using hempty) rfl
  | init order =>
    rw [apply] at h
    split at h
    · cases h
    · rename_i hempty
      split at h
      · cases h
      · split at h
        · cases h
        · split at h
          · cases h
          · rename_i hcapped
            split at h
            · cases h
            · rename_i hduplicate
              cases h
              exact .init (by simpa using hempty) (firstDuplicate_none hduplicate).1
                (Nat.le_of_not_lt hcapped) rfl
  | nominate fromView offset => cases h
  | batch ops =>
    rw [apply, applyBatch] at h
    split at h
    · cases h
    · obtain ⟨-, hshape, h⟩ := bind_eq_ok.mp h
      dsimp only at h
      split at h
      · cases h
      · obtain ⟨era, hera, h⟩ := bind_eq_ok.mp h
        obtain ⟨folded, hfolded, h⟩ := bind_eq_ok.mp h
        split at h
        · cases h
        · rename_i hmoved
          refine .batch hfolded (successorEra_ok hera) ?_ (pure_eq_ok.mp h).symm
          by_cases hscaling : (ops.length == 1 && ops.any SystemOperation.isScaling) = true
          · exact (solitary_scaling hscaling).imp id Or.inl
          · rw [Bool.not_eq_true] at hscaling
            rw [hscaling] at hmoved
            exact .inr (.inr (by simpa using hmoved))
  | increment node => exact hsingle h rfl
  | decrement node => exact hsingle h rfl
  | double => exact hsingle h rfl
  | halve => exact hsingle h rfl
  | join node position => exact hsingle h rfl
  | leave node => exact hsingle h rfl

theorem Established.wellFormed {c next : Configuration} {op : SystemOperation}
    (h : Established c next op) (hc : c.WellFormed) : next.WellFormed := by
  cases h with
  | void hempty hnext =>
    subst hnext
    exact ⟨List.nodup_nil, Nat.zero_le _⟩
  | @init order hempty hnodup hcapped hnext =>
    have hnodes : next.nodes = order := by
      subst hnext
      simp [nodes, Function.comp_def]
    exact ⟨hnodes ▸ hnodup, hnodes ▸ hcapped⟩
  | batch hfolded hera hunit hnext =>
    subst hnext
    have hfolded' := (applyAllInEra_nodes c [] hc hfolded
      (fun _ hmem => by cases hmem) (fun _ hmem => .inl hmem)).1
    exact ⟨hfolded'.nodup, hfolded'.capped⟩
  | single hnominate hfolded hera hnext =>
    subst hnext
    have hfolded' := (applyInEra_change hc.nodup hfolded).1.wellFormed hc
    exact ⟨hfolded'.nodup, hfolded'.capped⟩

theorem Reachable.wellFormed {c : Configuration} (h : c.Reachable) : c.WellFormed := by
  induction h with
  | void => exact ⟨List.nodup_nil, Nat.zero_le _⟩
  | apply _ hnext ih => exact (apply_established hnext).wellFormed ih

/-! ### Quorums meet -/

/-- The nodes of either configuration. -/
def bothNodes (c next : Configuration) : Finset Nat := (c.nodes ++ next.nodes).toFinset

/-- One unit of weight moved, or all weights doubled, or all of them halved. -/
def Shifts (c next : Configuration) : Prop :=
  Majority.moved c.weightAt next.weightAt (bothNodes c next) ≤ 1 ∨
    (∀ node, next.weightAt node = 2 * c.weightAt node) ∨
    ∀ node, c.weightAt node = 2 * next.weightAt node

theorem massMoved_eq (c next : Configuration) :
    c.massMoved next = Majority.moved c.weightAt next.weightAt (bothNodes c next) := by
  have hnodes : bothNodes c next =
      ((c.order ++ next.order).map Member.node).dedup.toFinset := by
    ext node
    simp [bothNodes, nodes]
  rw [hnodes, Majority.moved, List.sum_toFinset _ (List.nodup_dedup _)]
  rfl

/-- An operation that rescales nothing moves at most one unit. -/
theorem Change.moved_le_one {c next : Configuration} {op : SystemOperation} (h : Change c next op)
    (hscaling : op.isScaling = false) :
    Majority.moved c.weightAt next.weightAt (bothNodes c next) ≤ 1 := by
  cases h with
  | @reweigh _ node hop hnodes hrest hunit => exact Majority.moved_le_one _ node hrest hunit
  | double hnodes hweight => cases hscaling
  | halve hnodes hweight => cases hscaling
  | join hnew hroom hnodes hposition hweight =>
    exact Majority.moved_le_one _ 0 (fun node _ => hweight node) (by rw [hweight]; omega)
  | leave hmem hnodes hweight =>
    exact Majority.moved_le_one _ 0 (fun node _ => hweight node) (by rw [hweight]; omega)
  | nominate hsame =>
    subst hsame
    rw [Majority.moved_self]
    exact Nat.zero_le _

theorem Change.shifts {c next : Configuration} {op : SystemOperation} (h : Change c next op) :
    Shifts c next := by
  by_cases hscaling : op.isScaling = false
  · exact .inl (h.moved_le_one hscaling)
  · cases h with
    | reweigh hop =>
      rcases hop with rfl | rfl
      · exact absurd rfl hscaling
      · exact absurd rfl hscaling
    | double hnodes hweight => exact .inr (.inl hweight)
    | halve hnodes hweight => exact .inr (.inr hweight)
    | join => exact absurd rfl hscaling
    | leave => exact absurd rfl hscaling
    | nominate => exact absurd rfl hscaling

/-- Past the genesis, an accepted operation shifts the weights. -/
theorem Established.shifts {c next : Configuration} {op : SystemOperation}
    (h : Established c next op) (hc : c.WellFormed) : c.order = [] ∨ Shifts c next := by
  cases h with
  | void hempty hnext => exact .inl hempty
  | init hempty hnodup hcapped hnext => exact .inl hempty
  | single hnominate hfolded hera hnext =>
    subst hnext
    exact .inr (applyInEra_change hc.nodup hfolded).1.shifts
  | @batch ops folded era hfolded hera hunit hnext =>
    subst hnext
    have hscaling : ∀ op, ops = [op] → Shifts c folded := by
      rintro op rfl
      rw [applyAllInEra] at hfolded
      obtain ⟨middle, hmiddle, hfolded⟩ := bind_eq_ok.mp hfolded
      cases hfolded
      exact (applyInEra_change hc.nodup hmiddle).1.shifts
    rcases hunit with hop | hop | hmoved
    · exact .inr (hscaling _ hop)
    · exact .inr (hscaling _ hop)
    · exact .inr (.inl (by rwa [massMoved_eq] at hmoved))

theorem not_isQuorum_of_empty {c : Configuration} (hempty : c.order = []) (role : Role)
    (members : List Nat) : weightedMajority.isQuorum role c members = false := by
  have hnodes : c.nodes = [] := by rw [nodes, hempty]; rfl
  by_contra h
  rw [Bool.not_eq_false] at h
  have hmajority := isMajority_of_isQuorum (s := ∅) (by rw [hnodes]; exact List.nodup_nil)
    (by rw [hnodes]; exact fun _ hmem => by cases hmem) h
  have hlt := hmajority.2
  rw [Finset.subset_empty.mp hmajority.1] at hlt
  simp at hlt

theorem Shifts.quorums_meet {c next : Configuration} (h : Shifts c next) (hc : c.WellFormed)
    (hnext : next.WellFormed) {role role' : Role} {members members' : List Nat}
    (hquorum : weightedMajority.isQuorum role c members = true)
    (hquorum' : weightedMajority.isQuorum role' next members' = true) :
    ∃ node, node ∈ members ∧ node ∈ members' := by
  have hmajority := isMajority_of_isQuorum (s := bothNodes c next) hc.nodup
    (fun node hmem => List.mem_toFinset.mpr (List.mem_append_left _ hmem)) hquorum
  have hmajority' := isMajority_of_isQuorum (s := bothNodes c next) hnext.nodup
    (fun node hmem => List.mem_toFinset.mpr (List.mem_append_right _ hmem)) hquorum'
  have hmeet : ∃ node, node ∈ members.toFinset ∧ node ∈ members'.toFinset := by
    rcases h with hmoved | hdoubled | hhalved
    · exact hmajority.meet hmoved hmajority'
    · exact hmajority.meet_scaled hdoubled hmajority'
    · obtain ⟨node, hnode', hnode⟩ := hmajority'.meet_scaled hhalved hmajority
      exact ⟨node, hnode, hnode'⟩
  simpa only [List.mem_toFinset] using hmeet

theorem shifts_self (c : Configuration) : Shifts c c :=
  .inl (by rw [Majority.moved_self]; exact Nat.zero_le _)

/-- Two quorums of one configuration, or of one and its successor, share a member. -/
theorem WellFormed.quorums_meet_next {c next : Configuration} {op : SystemOperation} {slot : Nat}
    (hc : c.WellFormed) (h : c.apply op slot = .ok next) {role role' : Role}
    {members members' : List Nat} (hquorum : weightedMajority.isQuorum role c members = true)
    (hquorum' : weightedMajority.isQuorum role' next members' = true) :
    ∃ node, node ∈ members ∧ node ∈ members' := by
  have hestablished := apply_established h
  rcases hestablished.shifts hc with hempty | hshifts
  · rw [not_isQuorum_of_empty hempty] at hquorum
    cases hquorum
  · exact hshifts.quorums_meet hc (hestablished.wellFormed hc) hquorum hquorum'

/-- **Majorities of consecutive configurations intersect**, and so do two of one. -/
theorem quorums_intersect {c : Configuration} (hc : c.Reachable) {role role' : Role}
    {members members' : List Nat}
    (hquorum : weightedMajority.isQuorum role c members = true) :
    (∀ op slot next, c.apply op slot = .ok next →
      weightedMajority.isQuorum role' next members' = true →
      ∃ node, node ∈ members ∧ node ∈ members') ∧
    (weightedMajority.isQuorum role' c members' = true →
      ∃ node, node ∈ members ∧ node ∈ members') := by
  refine ⟨fun op slot next hnext hquorum' => ?_, fun hquorum' => ?_⟩
  · exact hc.wellFormed.quorums_meet_next hnext hquorum hquorum'
  · exact (shifts_self c).quorums_meet hc.wellFormed hc.wellFormed hquorum hquorum'

theorem quorums_intersect_increment :
    ∃ node, node ∈ [1, 2] ∧ node ∈ [3, 1] :=
  (quorums_intersect (c := { era := 1, order := [⟨1, 1⟩, ⟨2, 1⟩, ⟨3, 1⟩] })
    (.apply .void (show void.apply (.init [1, 2, 3]) initSlot = _ from rfl))
    (show weightedMajority.isQuorum .viewChange _ [1, 2] = true by decide)).1
    (.increment 3) 3 { era := 2, order := [⟨1, 1⟩, ⟨2, 1⟩, ⟨3, 2⟩] } rfl
    (show weightedMajority.isQuorum .commit _ [3, 1] = true by decide)

end Configuration

/-! ### The gate -/

open UvrrCore.Configuration

/-- A mask and its complement select disjoint lists. -/
theorem membersOf_disjoint {members : List Nat} (hnodup : members.Nodup) (mask : Nat)
    {node : Nat} (h : node ∈ membersOf members mask)
    (h' : node ∈ membersOf members (fullMask members ^^^ mask)) : False := by
  obtain ⟨⟨first, i⟩, hfirst, rfl⟩ := List.mem_map.mp h
  obtain ⟨⟨second, j⟩, hsecond, heq⟩ := List.mem_map.mp h'
  obtain ⟨hfirst, hbit⟩ := List.mem_filter.mp hfirst
  obtain ⟨hsecond, hbit'⟩ := List.mem_filter.mp hsecond
  have hi := List.mem_zipIdx_iff_getElem?.mp hfirst
  have hj := List.mem_zipIdx_iff_getElem?.mp hsecond
  simp only at hi hj heq hbit hbit'
  subst heq
  obtain ⟨hilt, hi⟩ := List.getElem?_eq_some_iff.mp hi
  obtain ⟨hjlt, hj⟩ := List.getElem?_eq_some_iff.mp hj
  have hij : i = j := (List.Nodup.getElem_inj_iff hnodup).mp (hi.trans hj.symm)
  subst hij
  rw [Nat.testBit_xor, fullMask, Nat.testBit_two_pow_sub_one, decide_eq_true hilt, hbit] at hbit'
  cases hbit'

/-- Where quorums of the two families always meet, the gate finds no disjoint pair. -/
theorem findDisjointPair_eq_none {strategy : QuorumStrategy}
    {familyA familyB : Role × Configuration} {members : List Nat} (hnodup : members.Nodup)
    (hmeet : ∀ xs ys, strategy.isQuorum familyA.1 familyA.2 xs = true →
      strategy.isQuorum familyB.1 familyB.2 ys = true → ∃ node, node ∈ xs ∧ node ∈ ys) :
    findDisjointPair strategy familyA familyB members = none := by
  have hnone : disjointQuorumsExist strategy familyA familyB members = false := by
    refine List.any_eq_false.mpr fun mask _ => ?_
    rw [Bool.and_eq_true]
    rintro ⟨hx, hy⟩
    obtain ⟨node, hnode, hnode'⟩ := hmeet _ _ hx hy
    exact membersOf_disjoint hnodup mask hnode hnode'
  unfold findDisjointPair
  rw [hnone]
  rfl

theorem checkCap_ok {c : Configuration} (h : c.nodes.length ≤ maxMembers) :
    checkCap c = .ok () := by
  rw [nodes, List.length_map] at h
  exact if_neg (Nat.not_lt.mpr h)

/-- No configuration the fold makes is refused by itself. -/
theorem validateEra_ok {c : Configuration} (hc : c.WellFormed) :
    validateEra weightedMajority c = .ok () := by
  have hnone : ∀ role role', findDisjointPair weightedMajority (role, c) (role', c)
      (c.order.map Member.node) = none := fun role role' =>
    findDisjointPair_eq_none hc.nodup fun xs ys hx hy =>
      (shifts_self c).quorums_meet hc hc hx hy
  unfold validateEra
  simp only [checkCap_ok hc.capped, hnone]
  rfl

/-- The nodes over which the gate judges a transition. -/
def gateMembers (current next : Configuration) : List Nat :=
  (((current.order ++ next.order).map Member.node).insertionSort (· ≤ ·)).dedup

theorem mem_gateMembers {current next : Configuration} {node : Nat} :
    node ∈ gateMembers current next ↔ node ∈ current.nodes ∨ node ∈ next.nodes := by
  rw [gateMembers, List.mem_dedup, List.mem_insertionSort]
  simp [nodes]

theorem validateTransition_ok_iff {current next : Configuration} {op : SystemOperation}
    {slot : Nat} (hc : current.WellFormed) (h : current.apply op slot = .ok next) :
    validateTransition weightedMajority current next = .ok () ↔
      (gateMembers current next).length ≤ maxMembers := by
  have hnext := (apply_established h).wellFormed hc
  have hnodup : (gateMembers current next).Nodup := List.nodup_dedup _
  have hforward : findDisjointPair weightedMajority (.viewChange, current) (.commit, next)
      (gateMembers current next) = none :=
    findDisjointPair_eq_none hnodup fun xs ys hx hy => hc.quorums_meet_next h hx hy
  have hreverse : findDisjointPair weightedMajority (.viewChange, next) (.commit, current)
      (gateMembers current next) = none := by
    refine findDisjointPair_eq_none hnodup fun xs ys hx hy => ?_
    obtain ⟨node, hnode, hnode'⟩ := hc.quorums_meet_next h hy hx
    exact ⟨node, hnode', hnode⟩
  have hgate : validateTransition weightedMajority current next =
      if maxMembers < (gateMembers current next).length then
        .error (.membershipCapExceeded maxMembers) else .ok () := by
    unfold validateTransition
    rw [checkCap_ok hc.capped, checkCap_ok hnext.capped]
    show (if maxMembers < (gateMembers current next).length then _ else _) = _
    rw [show (((current.order ++ next.order).map Member.node).insertionSort (· ≤ ·)).dedup =
      gateMembers current next from rfl, hforward, hreverse]
    rfl
  rw [hgate]
  split
  · rename_i hlt
    exact ⟨fun h => (by cases h), fun hle => absurd hlt (Nat.not_lt.mpr hle)⟩
  · rename_i hle
    exact ⟨fun _ => Nat.le_of_not_lt hle, fun _ => rfl⟩

/-- Behind an accepted operation the nodes are the old ones and the entrants, minus leavers. -/
theorem Configuration.Established.nodes {c next : Configuration} {op : SystemOperation}
    (h : Established c next op) (hc : c.WellFormed) :
    (∀ node ∈ entrants op, node ∈ next.nodes) ∧
      ∀ node ∈ next.nodes, node ∈ c.nodes ∨ node ∈ entrants op := by
  have hrun : ∀ ops folded, c.applyAllInEra ops = .ok folded →
      (∀ node ∈ entrantsOf [] ops, node ∈ folded.nodes) ∧
        ∀ node ∈ folded.nodes, node ∈ c.nodes ∨ node ∈ entrantsOf [] ops :=
    fun ops folded hfolded => (applyAllInEra_nodes c [] hc hfolded
      (fun _ hmem => by cases hmem) (fun _ hmem => .inl hmem)).2
  cases h with
  | void hempty hnext =>
    subst hnext
    exact ⟨fun _ hmem => (by cases hmem), fun _ hmem => (by cases hmem)⟩
  | @init order hempty hnodup hcapped hnext =>
    subst hnext
    have hnodes : (order.map fun node => ({ node := node, weight := 1 } : Member)).map
        Member.node = order := by simp [Function.comp_def]
    exact ⟨fun node hmem => by rw [Configuration.nodes, hnodes]; exact hmem,
      fun node hmem => .inr (by rw [Configuration.nodes, hnodes] at hmem; exact hmem)⟩
  | @batch ops folded era hfolded hera hunit hnext =>
    subst hnext
    exact hrun ops folded hfolded
  | @single _ folded era hnominate hfolded hera hnext =>
    subst hnext
    have hall : c.applyAllInEra [op] = .ok folded := by
      rw [applyAllInEra, hfolded]
      rfl
    have hnodes := hrun [op] folded hall
    cases op with
    | init order => cases hfolded
    | batch ops => cases hfolded
    | _ => exact hnodes

theorem length_gateMembers {c next : Configuration} {op : SystemOperation} {slot : Nat}
    (hc : c.WellFormed) (h : c.apply op slot = .ok next) :
    (gateMembers c next).length = (c.nodes ++ entrants op).dedup.length := by
  obtain ⟨hentered, hnodes⟩ := (apply_established h).nodes hc
  refine ((List.perm_ext_iff_of_nodup (List.nodup_dedup _) (List.nodup_dedup _)).mpr
    fun node => ?_).length_eq
  rw [← gateMembers, mem_gateMembers, List.mem_dedup, List.mem_append]
  exact ⟨fun hmem => hmem.elim Or.inl (hnodes node), fun hmem => hmem.imp id (hentered node)⟩

/-- **When the gates admit an accepted operation.** The intersections never fail; the union of
the old nodes and the entrants has to fit the cap. -/
theorem gates_admit_iff {c next : Configuration} {op : SystemOperation} {slot : Nat}
    (hc : c.Reachable) (h : c.apply op slot = .ok next) :
    (validateEra weightedMajority next = .ok () ∧
      validateTransition weightedMajority c next = .ok ()) ↔
      (c.nodes ++ entrants op).dedup.length ≤ maxMembers := by
  have hc := hc.wellFormed
  rw [validateTransition_ok_iff hc h, length_gateMembers hc h]
  exact and_iff_right (validateEra_ok ((apply_established h).wellFormed hc))

/-- Fourteen voters and a learner: one more would fit. -/
def fifteen : Configuration where
  era := 2
  order := ((List.range 14).map fun node => ⟨node + 1, 1⟩) ++ [⟨15, 0⟩]

/-- Its learner replaced by another, in one batch: both gates admit it, with sixteen nodes. -/
theorem gates_admit_replacement :
    ∃ next, fifteen.apply (.batch [.leave 15, .join 16 0]) 4 = .ok next ∧
      next.nodes = 16 :: (List.range 14).map (· + 1) ∧
      validateEra weightedMajority next = .ok () ∧
      validateTransition weightedMajority fifteen next = .ok () :=
  have hfifteen : fifteen.Reachable := .apply
    (.apply .void (show void.apply (.init ((List.range 14).map (· + 1))) initSlot = _ from rfl))
    (show Configuration.apply _ (.join 15 14) 3 = _ from rfl)
  ⟨_, rfl, rfl, (@gates_admit_iff fifteen _ (.batch [.leave 15, .join 16 0]) 4 hfifteen rfl).mpr
    (by decide)⟩

/-- Fifteen voters and a learner: as many members as fit. -/
def crowded : Configuration where
  era := 2
  order := ((List.range 15).map fun node => ⟨node + 1, 1⟩) ++ [⟨16, 0⟩]

/-- The learner of a full configuration replaced by another. The fold accepts the batch and the
gate refuses the transition, for the union of the memberships has seventeen nodes. -/
theorem crowded_refused :
    crowded.Reachable ∧ ∃ next, crowded.apply (.batch [.leave 16, .join 17 0]) 4 = .ok next ∧
      validateTransition weightedMajority crowded next =
        .error (.membershipCapExceeded maxMembers) := by
  refine ⟨?_, _, rfl, rfl⟩
  exact .apply
    (.apply .void (show void.apply (.init ((List.range 15).map (· + 1))) initSlot = _ from rfl))
    (show Configuration.apply _ (.join 16 15) 3 = _ from rfl)

end UvrrCore
