import UvrrCore.Intersection

/-!
# What the fold admits and what it leads to

`Configuration.applyInEra` searches and rebuilds lists. Over a configuration that lists each node
once, its verdict and its result have closed forms: `Admits` is the precondition of an operation,
`afterOp` the configuration it leads to, and `applyInEra_eq_ok` says that the fold is the two of
them. The later modules reason about the closed forms only.
-/

namespace UvrrCore

namespace Configuration

/-- One node reweighed. -/
def reweighed (c : Configuration) (node weight : Nat) : Configuration :=
  { c with order := c.order.map fun member =>
      if member.node = node then { member with weight := weight } else member }

/-- Every weight rescaled. -/
def rescaled (c : Configuration) (scale : Nat → Nat) : Configuration :=
  { c with order := c.order.map fun member => { member with weight := scale member.weight } }

/-- One node removed. -/
def without (c : Configuration) (node : Nat) : Configuration :=
  { c with order := c.order.filter fun member => member.node != node }

/-- A learner inserted. -/
def joined (c : Configuration) (node position : Nat) : Configuration :=
  { c with order := c.order.insertIdx position { node := node, weight := 0 } }

/-- The precondition of an operation inside an era. -/
def Admits (c : Configuration) : SystemOperation → Prop
  | .increment node => node ∈ c.nodes ∧ c.weightAt node < maxWeight
  | .decrement node => node ∈ c.nodes ∧ 0 < c.weightAt node ∧ c.total ≠ 1
  | .double => ∀ member ∈ c.order, member.weight * 2 ≤ maxWeight
  | .halve => ∀ member ∈ c.order, member.weight % 2 = 0
  | .join node position =>
    node ∉ c.nodes ∧ c.nodes.length < maxMembers ∧ position ≤ c.nodes.length
  | .leave node => node ∈ c.nodes ∧ c.weightAt node = 0
  | .nominate _ offset => offset ≠ 0
  | .void | .init _ | .batch _ => False

/-- The configuration an admitted operation leads to, in the same era. -/
def afterOp (c : Configuration) : SystemOperation → Configuration
  | .increment node => c.reweighed node (c.weightAt node + 1)
  | .decrement node => c.reweighed node (c.weightAt node - 1)
  | .double => c.rescaled (· * 2)
  | .halve => c.rescaled (· / 2)
  | .join node position => c.joined node position
  | .leave node => c.without node
  | .nominate _ _ | .void | .init _ | .batch _ => c

@[simp] theorem afterOp_era (c : Configuration) (op : SystemOperation) :
    (c.afterOp op).era = c.era := by
  cases op <;> rfl

/-! ### The searches in closed form -/

theorem findIdx?_of_mem {c : Configuration} {node : Nat} (h : node ∈ c.nodes) :
    ∃ index, (c.order.findIdx? fun member => member.node == node) = some index := by
  obtain ⟨member, hmem, hnode⟩ := List.mem_map.mp h
  rw [← Option.isSome_iff_exists, List.findIdx?_isSome, List.any_eq_true]
  exact ⟨member, hmem, by simpa using hnode⟩

theorem findIdx?_of_not_mem {c : Configuration} {node : Nat} (h : node ∉ c.nodes) :
    (c.order.findIdx? fun member => member.node == node) = none := by
  refine List.findIdx?_eq_none_iff.mpr fun member hmem => ?_
  have hne : member.node ≠ node := fun heq => h (List.mem_map.mpr ⟨member, hmem, heq⟩)
  simpa using hne

/-- Where each node is listed once, the position of a node is where its weight is changed. -/
theorem setWeight_eq {c : Configuration} {node index : Nat} (hnodup : c.nodes.Nodup)
    (h : (c.order.findIdx? fun member => member.node == node) = some index) (weight : Nat) :
    c.setWeight index weight = c.reweighed node weight := by
  unfold setWeight reweighed
  congr 1
  unfold nodes at hnodup
  generalize c.order = order at h hnodup
  induction order generalizing index with
  | nil => cases h
  | cons first rest ih =>
    rw [List.map_cons, List.nodup_cons] at hnodup
    rw [List.findIdx?_cons] at h
    by_cases hfirst : first.node = node
    · rw [if_pos (by simpa using hfirst)] at h
      cases h
      rw [List.modify_zero_cons, List.map_cons, if_pos hfirst]
      congr 1
      symm
      refine (List.map_congr_left fun member hmem => if_neg fun heq => ?_).trans (List.map_id _)
      exact hnodup.1 (List.mem_map.mpr ⟨member, hmem, heq.trans hfirst.symm⟩)
    · rw [if_neg (by simpa using hfirst)] at h
      obtain ⟨index', hindex, rfl⟩ := Option.map_eq_some_iff.mp h
      rw [List.modify_succ_cons, List.map_cons, if_neg hfirst, ih hindex hnodup.2]

theorem eraseIdx_eq {c : Configuration} {node index : Nat} (hnodup : c.nodes.Nodup)
    (h : (c.order.findIdx? fun member => member.node == node) = some index) :
    c.order.eraseIdx index = c.order.filter fun member => member.node != node := by
  unfold nodes at hnodup
  generalize c.order = order at h hnodup
  induction order generalizing index with
  | nil => cases h
  | cons first rest ih =>
    rw [List.map_cons, List.nodup_cons] at hnodup
    rw [List.findIdx?_cons] at h
    by_cases hfirst : first.node = node
    · rw [if_pos (by simpa using hfirst)] at h
      cases h
      rw [List.eraseIdx_cons_zero, List.filter_cons_of_neg (by simpa using hfirst)]
      symm
      refine List.filter_eq_self.mpr fun member hmem => ?_
      have hne : member.node ≠ node := fun heq =>
        hnodup.1 (List.mem_map.mpr ⟨member, hmem, heq.trans hfirst.symm⟩)
      simpa using hne
    · rw [if_neg (by simpa using hfirst)] at h
      obtain ⟨index', hindex, rfl⟩ := Option.map_eq_some_iff.mp h
      rw [List.eraseIdx_cons_succ, List.filter_cons_of_pos (by simpa using hfirst),
        ih hindex hnodup.2]

/-- A map that fails on some members succeeds exactly when it fails on none. -/
theorem mapM_ok_iff {f : Member → Except ConfigError Member} {p : Member → Prop}
    {g : Member → Member} (hf : ∀ member member', f member = .ok member' ↔
      p member ∧ member' = g member) {order order' : List Member} :
    order.mapM f = .ok order' ↔ (∀ member ∈ order, p member) ∧ order' = order.map g := by
  induction order generalizing order' with
  | nil =>
    rw [List.mapM_nil, pure_eq_ok]
    simp [eq_comm]
  | cons first rest ih =>
    rw [List.mapM_cons, bind_eq_ok]
    simp only [bind_eq_ok, hf, ih, pure_eq_ok, List.forall_mem_cons, List.map_cons]
    constructor
    · rintro ⟨first', ⟨hfirst, rfl⟩, rest', ⟨hrest, rfl⟩, rfl⟩
      exact ⟨⟨hfirst, hrest⟩, rfl⟩
    · rintro ⟨⟨hfirst, hrest⟩, rfl⟩
      exact ⟨_, ⟨hfirst, rfl⟩, _, ⟨hrest, rfl⟩, rfl⟩

theorem doubled_eq_ok (member member' : Member) :
    doubled member = .ok member' ↔
      member.weight * 2 ≤ maxWeight ∧ member' = { member with weight := member.weight * 2 } := by
  unfold doubled
  split
  · rename_i hle
    exact ⟨fun h => ⟨hle, (Except.ok.inj h).symm⟩, fun h => congrArg Except.ok h.2.symm⟩
  · rename_i hlt
    exact ⟨fun h => (by cases h), fun h => absurd h.1 hlt⟩

theorem halved_eq_ok (member member' : Member) :
    halved member = .ok member' ↔
      member.weight % 2 = 0 ∧ member' = { member with weight := member.weight / 2 } := by
  unfold halved
  split
  · rename_i heven
    exact ⟨fun h => ⟨heven, (Except.ok.inj h).symm⟩, fun h => congrArg Except.ok h.2.symm⟩
  · rename_i hodd
    exact ⟨fun h => (by cases h), fun h => absurd h.1 hodd⟩

/-! ### The fold in closed form -/

/-- **The in-era fold admits an operation or refuses it, and leads where `afterOp` says.** -/
theorem applyInEra_eq_ok {c next : Configuration} (hnodup : c.nodes.Nodup)
    {op : SystemOperation} :
    c.applyInEra op = .ok next ↔ c.Admits op ∧ next = c.afterOp op := by
  cases op with
  | void => exact ⟨fun h => (by cases h), fun h => h.1.elim⟩
  | init order => exact ⟨fun h => (by cases h), fun h => h.1.elim⟩
  | batch ops => exact ⟨fun h => (by cases h), fun h => h.1.elim⟩
  | increment node =>
    rw [applyInEra]
    by_cases hmem : node ∈ c.nodes
    · obtain ⟨index, hindex⟩ := findIdx?_of_mem hmem
      simp only [hindex, setWeight_eq hnodup hindex]
      change (if maxWeight ≤ c.weightAt node then _ else Except.ok (c.reweighed node
        (c.weightAt node + 1))) = _ ↔ _
      split
      · rename_i hle
        exact ⟨fun h => (by cases h), fun h => absurd h.1.2 (Nat.not_lt.mpr hle)⟩
      · rename_i hlt
        exact ⟨fun h => ⟨⟨hmem, Nat.lt_of_not_le hlt⟩, (Except.ok.inj h).symm⟩,
          fun h => congrArg Except.ok h.2.symm⟩
    · rw [findIdx?_of_not_mem hmem]
      exact ⟨fun h => (by cases h), fun h => absurd h.1.1 hmem⟩
  | decrement node =>
    rw [applyInEra]
    by_cases hmem : node ∈ c.nodes
    · obtain ⟨index, hindex⟩ := findIdx?_of_mem hmem
      simp only [hindex, setWeight_eq hnodup hindex]
      change (if c.weightAt node = 0 then _ else if c.total = 1 then _ else
        Except.ok (c.reweighed node (c.weightAt node - 1))) = _ ↔ _
      split
      · rename_i hzero
        exact ⟨fun h => (by cases h), fun h => absurd h.1.2.1 (by omega)⟩
      · rename_i hpos
        split
        · rename_i hone
          exact ⟨fun h => (by cases h), fun h => absurd hone h.1.2.2⟩
        · rename_i hone
          exact ⟨fun h => ⟨⟨hmem, Nat.pos_of_ne_zero hpos, hone⟩, (Except.ok.inj h).symm⟩,
            fun h => congrArg Except.ok h.2.symm⟩
    · rw [findIdx?_of_not_mem hmem]
      exact ⟨fun h => (by cases h), fun h => absurd h.1.1 hmem⟩
  | double =>
    rw [applyInEra, bind_eq_ok]
    simp only [mapM_ok_iff doubled_eq_ok, pure_eq_ok]
    constructor
    · rintro ⟨order, ⟨hall, rfl⟩, rfl⟩
      exact ⟨hall, rfl⟩
    · rintro ⟨hall, rfl⟩
      exact ⟨_, ⟨hall, rfl⟩, rfl⟩
  | halve =>
    rw [applyInEra, bind_eq_ok]
    simp only [mapM_ok_iff halved_eq_ok, pure_eq_ok]
    constructor
    · rintro ⟨order, ⟨hall, rfl⟩, rfl⟩
      exact ⟨hall, rfl⟩
    · rintro ⟨hall, rfl⟩
      exact ⟨_, ⟨hall, rfl⟩, rfl⟩
  | join node position =>
    have hlen : c.order.length = c.nodes.length := by rw [nodes, List.length_map]
    have hany : (c.order.any fun member => member.node == node) = true ↔ node ∈ c.nodes := by
      simp [nodes]
    rw [applyInEra, len, hlen]
    split
    · rename_i hin
      exact ⟨fun h => (by cases h), fun h => absurd (hany.mp hin) h.1.1⟩
    · rename_i hnew
      split
      · rename_i hfull
        exact ⟨fun h => (by cases h), fun h => absurd h.1.2.1 (Nat.not_lt.mpr hfull)⟩
      · rename_i hroom
        split
        · rename_i hpast
          exact ⟨fun h => (by cases h), fun h => absurd h.1.2.2 (Nat.not_le.mpr hpast)⟩
        · rename_i hposition
          exact ⟨fun h => ⟨⟨fun hmem => hnew (hany.mpr hmem), Nat.lt_of_not_le hroom,
            Nat.le_of_not_lt hposition⟩, (Except.ok.inj h).symm⟩,
            fun h => congrArg Except.ok h.2.symm⟩
  | leave node =>
    rw [applyInEra]
    by_cases hmem : node ∈ c.nodes
    · obtain ⟨index, hindex⟩ := findIdx?_of_mem hmem
      simp only [hindex, eraseIdx_eq hnodup hindex]
      change (if c.weightAt node ≠ 0 then _ else Except.ok (c.without node)) = _ ↔ _
      split
      · rename_i hweight
        exact ⟨fun h => (by cases h), fun h => absurd h.1.2 hweight⟩
      · rename_i hweight
        exact ⟨fun h => ⟨⟨hmem, not_not.mp hweight⟩, (Except.ok.inj h).symm⟩,
          fun h => congrArg Except.ok h.2.symm⟩
    · rw [findIdx?_of_not_mem hmem]
      exact ⟨fun h => (by cases h), fun h => absurd h.1.1 hmem⟩
  | nominate fromView offset =>
    rw [applyInEra]
    split
    · rename_i hzero
      exact ⟨fun h => (by cases h), fun h => absurd hzero h.1⟩
    · rename_i hoffset
      exact ⟨fun h => ⟨hoffset, (Except.ok.inj h).symm⟩, fun h => congrArg Except.ok h.2.symm⟩

/-! ### Nodes and weights behind an operation -/

theorem mem_nodes {c : Configuration} {node : Nat} :
    node ∈ c.nodes ↔ ∃ weight, (⟨node, weight⟩ : Member) ∈ c.order := by
  rw [nodes, List.mem_map]
  constructor
  · rintro ⟨member, hmem, rfl⟩
    exact ⟨member.weight, hmem⟩
  · rintro ⟨weight, hmem⟩
    exact ⟨_, hmem, rfl⟩

/-- A node weighs what its entry says. -/
theorem weightOf_eq_some {c : Configuration} (hnodup : c.nodes.Nodup) {node weight : Nat} :
    c.weightOf node = some weight ↔ (⟨node, weight⟩ : Member) ∈ c.order := by
  constructor
  · intro h
    obtain ⟨member, hfind, rfl⟩ := Option.map_eq_some_iff.mp h
    have hnode : member.node = node := by simpa using List.find?_some hfind
    rw [← hnode]
    exact List.mem_of_find?_eq_some hfind
  · intro hmem
    have hweight : c.weightAt node = weight := weightAt_of_mem hnodup hmem
    have hne : c.weightOf node ≠ none := fun hnone =>
      weightOf_eq_none.mp hnone (mem_nodes.mpr ⟨weight, hmem⟩)
    obtain ⟨own, hown⟩ := Option.ne_none_iff_exists'.mp hne
    rw [weightAt, hown] at hweight
    rw [hown]
    exact congrArg some hweight

theorem weightOf_of_mem {c : Configuration} {node : Nat} (h : node ∈ c.nodes) :
    c.weightOf node = some (c.weightAt node) := by
  cases hweight : c.weightOf node with
  | none => exact absurd h (weightOf_eq_none.mp hweight)
  | some weight => rw [weightAt, hweight]; rfl

theorem mem_order_iff {c : Configuration} (hnodup : c.nodes.Nodup) {node weight : Nat} :
    (⟨node, weight⟩ : Member) ∈ c.order ↔ node ∈ c.nodes ∧ c.weightAt node = weight := by
  rw [← weightOf_eq_some hnodup]
  constructor
  · intro h
    refine ⟨?_, by rw [weightAt, h]; rfl⟩
    by_contra hout
    rw [weightOf_eq_none.mpr hout] at h
    cases h
  · rintro ⟨hmem, rfl⟩
    exact weightOf_of_mem hmem

@[simp] theorem nodes_reweighed (c : Configuration) (node weight : Nat) :
    (c.reweighed node weight).nodes = c.nodes := by
  unfold nodes reweighed
  rw [List.map_map]
  refine List.map_congr_left fun member _ => ?_
  dsimp only [Function.comp_apply]
  split <;> rfl

@[simp] theorem nodes_rescaled (c : Configuration) (scale : Nat → Nat) :
    (c.rescaled scale).nodes = c.nodes := by
  simp [nodes, rescaled, Function.comp_def]

@[simp] theorem nodes_without (c : Configuration) (node : Nat) :
    (c.without node).nodes = c.nodes.filter fun other => other != node := by
  rw [nodes, nodes, without, List.filter_map]
  rfl

@[simp] theorem nodes_joined (c : Configuration) (node position : Nat) :
    (c.joined node position).nodes = c.nodes.insertIdx position node :=
  List.map_insertIdx _ _ _ _

theorem weightAt_reweighed {c : Configuration} (hnodup : c.nodes.Nodup) {node : Nat}
    (hmem : node ∈ c.nodes) (weight other : Nat) :
    (c.reweighed node weight).weightAt other = if other = node then weight else c.weightAt other := by
  obtain ⟨index, hindex⟩ := findIdx?_of_mem hmem
  rw [← setWeight_eq hnodup hindex, weightAt, weightOf_setWeight weight other hindex]
  split <;> rfl

theorem weightAt_rescaled (c : Configuration) {scale : Nat → Nat} (hzero : scale 0 = 0)
    (node : Nat) : (c.rescaled scale).weightAt node = scale (c.weightAt node) := by
  unfold weightAt weightOf rescaled
  generalize c.order = order
  induction order with
  | nil => exact hzero.symm
  | cons first rest ih =>
    rw [List.map_cons, List.find?_cons, List.find?_cons]
    cases first.node == node with
    | true => rfl
    | false => exact ih

theorem weightAt_joined {c : Configuration} {node position : Nat} (hnew : node ∉ c.nodes)
    (hposition : position ≤ c.nodes.length) (other : Nat) :
    (c.joined node position).weightAt other = c.weightAt other :=
  weightAt_insert hnew (by rwa [nodes, List.length_map] at hposition) rfl other

theorem weightAt_without {c : Configuration} (hnodup : c.nodes.Nodup) {node : Nat}
    (hmem : node ∈ c.nodes) (hzero : c.weightAt node = 0) (other : Nat) :
    (c.without node).weightAt other = c.weightAt other := by
  obtain ⟨index, hindex⟩ := findIdx?_of_mem hmem
  exact weightAt_erase hnodup hindex hzero (eraseIdx_eq hnodup hindex).symm other

theorem total_reweighed {c : Configuration} (hnodup : c.nodes.Nodup) {node : Nat}
    (hmem : node ∈ c.nodes) (weight : Nat) :
    (c.reweighed node weight).total + c.weightAt node = c.total + weight := by
  have hsum : ∀ d : Configuration, d.nodes = c.nodes →
      d.total = d.weightAt node + ∑ other ∈ c.nodes.toFinset.erase node, d.weightAt other := by
    intro d hd
    rw [total_eq_sum (s := c.nodes.toFinset) (hd ▸ hnodup)
      (fun other hother => List.mem_toFinset.mpr (hd ▸ hother))]
    exact (Finset.add_sum_erase _ _ (List.mem_toFinset.mpr hmem)).symm
  have hrest : ∑ other ∈ c.nodes.toFinset.erase node, (c.reweighed node weight).weightAt other =
      ∑ other ∈ c.nodes.toFinset.erase node, c.weightAt other := by
    refine Finset.sum_congr rfl fun other hother => ?_
    rw [weightAt_reweighed hnodup hmem, if_neg (Finset.ne_of_mem_erase hother)]
  rw [hsum _ (nodes_reweighed c node weight), hsum c rfl, hrest,
    weightAt_reweighed hnodup hmem, if_pos rfl]
  omega

/-- There is weight exactly when some node has some. -/
theorem total_pos_iff {c : Configuration} (hnodup : c.nodes.Nodup) :
    0 < c.total ↔ ∃ node ∈ c.nodes, 0 < c.weightAt node := by
  rw [total_eq_sum (s := c.nodes.toFinset) hnodup fun _ hmem => List.mem_toFinset.mpr hmem,
    Finset.sum_pos_iff]
  simp only [List.mem_toFinset]

theorem weightAt_le_total {c : Configuration} (hnodup : c.nodes.Nodup) {node : Nat} :
    c.weightAt node ≤ c.total := by
  by_cases hmem : node ∈ c.nodes
  · rw [total_eq_sum (s := c.nodes.toFinset) hnodup fun _ hmem => List.mem_toFinset.mpr hmem]
    exact Finset.single_le_sum (fun _ _ => Nat.zero_le _) (List.mem_toFinset.mpr hmem)
  · rw [weightAt_eq_zero hmem]
    exact Nat.zero_le _

/-- The order is the nodes with their weights. -/
theorem order_eq_map {c : Configuration} (hnodup : c.nodes.Nodup) :
    c.order = c.nodes.map fun node => { node := node, weight := c.weightAt node } := by
  rw [nodes, List.map_map]
  refine ((List.map_congr_left fun member hmem => ?_).trans (List.map_id _)).symm
  rw [Function.comp_apply, weightAt_of_mem hnodup hmem]
  rfl

theorem order_ext {c d : Configuration} (hc : c.nodes.Nodup) (hd : d.nodes.Nodup)
    (hnodes : c.nodes = d.nodes) (hweight : ∀ node, c.weightAt node = d.weightAt node) :
    c.order = d.order := by
  rw [order_eq_map hc, order_eq_map hd, hnodes]
  exact List.map_congr_left fun node _ => by rw [hweight]

theorem mem_of_weight {c : Configuration} {node : Nat} (h : 0 < c.weightAt node) :
    node ∈ c.nodes := by
  by_contra hout
  rw [weightAt_eq_zero hout] at h
  exact Nat.lt_irrefl 0 h

theorem length_nodes (c : Configuration) : c.nodes.length = c.len := List.length_map _

/-- Two members with weight are weight enough. -/
theorem two_le_total {c : Configuration} (hnodup : c.nodes.Nodup) {node other : Nat}
    (hne : node ≠ other) (hnode : 0 < c.weightAt node) (hother : 0 < c.weightAt other) :
    2 ≤ c.total := by
  have hmem : ∀ x ∈ ({node, other} : Finset Nat), x ∈ c.nodes.toFinset := by
    intro x hx
    rcases Finset.mem_insert.mp hx with rfl | hx
    · exact List.mem_toFinset.mpr (mem_of_weight hnode)
    · rw [Finset.mem_singleton.mp hx]
      exact List.mem_toFinset.mpr (mem_of_weight hother)
  rw [total_eq_sum (s := c.nodes.toFinset) hnodup fun _ h => List.mem_toFinset.mpr h]
  refine Nat.le_trans ?_ (Finset.sum_le_sum_of_subset hmem)
  rw [Finset.sum_pair hne]
  omega

/-- Distinct members have a weight. -/
theorem weightOfSet_isSome {c : Configuration} {members : List Nat}
    (hnodup : members.Nodup) (hmem : ∀ node ∈ members, node ∈ c.nodes) :
    (c.weightOfSet members).isSome := by
  induction members with
  | nil => rfl
  | cons node rest ih =>
    obtain ⟨hnew, hnodup⟩ := List.nodup_cons.mp hnodup
    obtain ⟨sum, hsum⟩ := Option.isSome_iff_exists.mp
      (ih hnodup fun other hother => hmem other (List.mem_cons_of_mem _ hother))
    have hnode : c.weightOf node ≠ none := fun hnone =>
      weightOf_eq_none.mp hnone (hmem node (List.mem_cons_self ..))
    obtain ⟨weight, hweight⟩ := Option.ne_none_iff_exists'.mp hnode
    rw [weightOfSet, if_neg (by simpa using hnew), hweight, hsum]
    rfl

end Configuration

end UvrrCore
