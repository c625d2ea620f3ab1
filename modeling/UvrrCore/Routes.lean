import UvrrCore.Solver

/-!
# The ways the solver can go

Routes from one configuration to another by moves that the solver considers. A step lemma for each
kind of move says when it is there; the routes put steps together and say which nodes and weights
they come to. Each route is counted, because each step costs an era.
-/

namespace UvrrCore

namespace Solve

open UvrrCore.Configuration DepthFirst

/-! ### Single moves -/

section Steps

variable {target c d : Configuration} {node : Nat}

theorem move_of_candidate (hc : c.Live) (op : SystemOperation) (hop : op ∈ candidates c target)
    (hadmits : c.Admits op) : Moves target c (c.afterOp op) :=
  ⟨hc.order_ne, op, hop, (applyInEra_eq_ok hc.nodup).mpr ⟨hadmits, rfl⟩⟩

theorem Moves.live {d : Configuration} (h : Moves target c d) (hc : c.Live) : d.Live := by
  obtain ⟨-, op, -, hfolded⟩ := h
  exact hc.applyInEra hfolded

/-- A member below its weight in the target is raised. -/
theorem raise_move (hc : c.Live) (htarget : target.Live) (hmem : node ∈ c.nodes)
    (hless : c.weightAt node < target.weightAt node) :
    Moves target c (c.reweighed node (c.weightAt node + 1)) := by
  have hentry : (⟨node, target.weightAt node⟩ : Member) ∈ target.order :=
    (mem_order_iff htarget.nodup).mpr ⟨mem_of_weight (Nat.zero_lt_of_lt hless), rfl⟩
  have hbound := htarget.bounded _ hentry
  exact move_of_candidate hc (.increment node)
    (mem_candidates.mpr (.inl ⟨_, hentry, mem_towards.mpr (.inr (.inl ⟨hless, rfl⟩))⟩))
    ⟨hmem, Nat.lt_of_lt_of_le hless hbound⟩

/-- A member above its weight in the target is lowered, if it is in the target or the floor
allows it. -/
theorem lower_move (hc : c.Live) (htarget : target.Live) (hmem : node ∈ c.nodes)
    (hmore : target.weightAt node < c.weightAt node) (hfloor : node ∈ target.nodes ∨ 2 < c.len)
    (htotal : c.total ≠ 1) : Moves target c (c.reweighed node (c.weightAt node - 1)) := by
  have hpositive := Nat.zero_lt_of_lt hmore
  refine move_of_candidate hc (.decrement node) (mem_candidates.mpr ?_)
    ⟨hmem, hpositive, htotal⟩
  by_cases hin : node ∈ target.nodes
  · exact .inl ⟨_, (mem_order_iff htarget.nodup).mpr ⟨hin, rfl⟩,
      mem_towards.mpr (.inr (.inr ⟨hmore, rfl⟩))⟩
  · refine .inr (.inl ⟨_, (mem_order_iff hc.nodup).mpr ⟨hmem, rfl⟩, mem_retiring.mpr
      ⟨weightAt_eq_zero hin, hfloor.resolve_left hin, ?_⟩⟩)
    rw [if_neg (Nat.ne_of_gt hpositive)]

/-- A member that has no weight, nor has one in the target, leaves. -/
theorem leave_move (hc : c.Live) (hmem : node ∈ c.nodes) (hzero : c.weightAt node = 0)
    (hgone : target.weightAt node = 0) (hfloor : 2 < c.len) :
    Moves target c (c.without node) := by
  refine move_of_candidate hc (.leave node) (mem_candidates.mpr ?_) ⟨hmem, hzero⟩
  refine .inr (.inl ⟨_, (mem_order_iff hc.nodup).mpr ⟨hmem, rfl⟩, mem_retiring.mpr
    ⟨hgone, hfloor, ?_⟩⟩)
  rw [if_pos hzero]

theorem indexOf_eq {index : Nat} (hnodup : target.nodes.Nodup)
    (hindex : target.nodes[index]? = some node) : target.indexOf node = some index := by
  rw [indexOf]
  rw [nodes] at hnodup hindex
  generalize target.order = order at hnodup hindex
  induction order generalizing index with
  | nil => cases hindex
  | cons first rest ih =>
    rw [List.map_cons] at hnodup hindex
    obtain ⟨hnew, hnodup⟩ := List.nodup_cons.mp hnodup
    cases index with
    | zero =>
      obtain rfl := Option.some.inj hindex
      rw [List.findIdx?_cons, if_pos (beq_self_eq_true _)]
    | succ index =>
      rw [List.getElem?_cons_succ] at hindex
      have hne : ¬(first.node == node) = true := fun heq =>
        hnew (beq_iff_eq.mp heq ▸ List.mem_of_getElem? hindex)
      rw [List.findIdx?_cons, if_neg hne, ih hnodup hindex]
      rfl

/-- A node of the target joins at its index, if there is room and that many members. -/
theorem join_move (hc : c.Live) (htarget : target.Live) {index : Nat} (hnew : node ∉ c.nodes)
    (hindex : target.nodes[index]? = some node) (hle : index ≤ c.nodes.length)
    (hroom : c.nodes.length < maxMembers) : Moves target c (c.joined node index) := by
  refine move_of_candidate hc (.join node index) (mem_candidates.mpr (.inl ?_))
    ⟨hnew, hroom, hle⟩
  obtain ⟨member, hentry, rfl⟩ := List.mem_map.mp (List.mem_of_getElem? hindex)
  refine ⟨member, hentry, mem_towards.mpr (.inl ⟨hnew, ?_⟩)⟩
  rw [indexOf_eq htarget.nodup hindex]
  rfl

/-! ### What a move does to the nodes -/

/-- **The nodes stay, one of the target joins at its index, or one without a weight there
leaves.** -/
theorem Moves.nodes (h : Moves target c d) (hc : c.Live) (htarget : target.nodes.Nodup) :
    d.nodes = c.nodes ∨
    (∃ index node, target.nodes[index]? = some node ∧ node ∉ c.nodes ∧ index ≤ c.nodes.length ∧
      d.nodes = c.nodes.insertIdx index node) ∨
    ∃ node ∈ c.nodes, target.weightAt node = 0 ∧ 2 < c.len ∧ d.nodes = c.nodes.erase node := by
  obtain ⟨-, op, hop, hfolded⟩ := h
  obtain ⟨hadmits, rfl⟩ := (applyInEra_eq_ok hc.nodup).mp hfolded
  rcases mem_candidates.mp hop with ⟨member, hmember, hop⟩ | ⟨member, hmember, hop⟩ |
    ⟨-, rfl⟩ | ⟨-, rfl⟩
  · rcases mem_towards.mp hop with ⟨-, rfl⟩ | ⟨-, rfl⟩ | ⟨-, rfl⟩
    · obtain ⟨index, hindex⟩ := List.mem_iff_getElem?.mp
        (show member.node ∈ target.nodes from List.mem_map_of_mem hmember)
      obtain ⟨hnew, -, hle⟩ := hadmits
      rw [indexOf_eq htarget hindex] at hle ⊢
      exact .inr (.inl ⟨index, _, hindex, hnew, hle, nodes_joined c _ _⟩)
    · exact .inl (nodes_reweighed c _ _)
    · exact .inl (nodes_reweighed c _ _)
  · obtain ⟨hgone, hfloor, rfl⟩ := mem_retiring.mp hop
    by_cases hzero : member.weight = 0
    · rw [if_pos hzero] at hadmits ⊢
      refine .inr (.inr ⟨_, hadmits.1, hgone, hfloor, ?_⟩)
      rw [hc.nodup.erase_eq_filter]
      exact nodes_without c _
    · rw [if_neg hzero]
      exact .inl (nodes_reweighed c _ _)
  · exact .inl (nodes_rescaled c _)
  · exact .inl (nodes_rescaled c _)

/-- The floor holds. -/
theorem Moves.two_le (h : Moves target c d) (hc : c.Live) (htarget : target.nodes.Nodup)
    (htwo : 2 ≤ c.len) : 2 ≤ d.len := by
  rw [← length_nodes] at htwo ⊢
  rcases h.nodes hc htarget with heq | ⟨index, node, -, -, hle, heq⟩ | ⟨node, hmem, -, hfloor, heq⟩
  · rw [heq]
    exact htwo
  · rw [heq, List.length_insertIdx_of_le_length hle]
    omega
  · rw [← length_nodes] at hfloor
    rw [heq, List.length_erase_of_mem hmem]
    omega

end Steps

/-! ### Routes -/

/-- **A route of so many moves** to a configuration of these nodes and weights. -/
def Reaches (target : Configuration) (n : Nat) (c : Configuration) (nodes : List Nat)
    (weight : Nat → Nat) : Prop :=
  ∃ d, Within (Moves target) n c d ∧ d.Live ∧ d.nodes = nodes ∧ ∀ node, d.weightAt node = weight node

/-- **A route of so many moves** to the order of the target. -/
def Finishes (target : Configuration) (n : Nat) (c : Configuration) : Prop :=
  ∃ d, Within (Moves target) n c d ∧ d.order = target.order

section Routes

variable {target c : Configuration}

theorem Reaches.refl (hc : c.Live) : Reaches target 0 c c.nodes c.weightAt :=
  ⟨c, rfl, hc, rfl, fun _ => rfl⟩

theorem Reaches.step {n : Nat} {nodes nodes' : List Nat} {weight weight' : Nat → Nat}
    (h : Reaches target n c nodes weight)
    (hstep : ∀ d : Configuration, d.Live → d.nodes = nodes → (∀ x, d.weightAt x = weight x) →
      ∃ e, Moves target d e ∧ e.nodes = nodes' ∧ ∀ x, e.weightAt x = weight' x) :
    Reaches target (n + 1) c nodes' weight' := by
  obtain ⟨d, hwithin, hd, hnodes, hweight⟩ := h
  obtain ⟨e, hmove, he⟩ := hstep d hd hnodes hweight
  exact ⟨e, hwithin.trans (.single hmove), hmove.live hd, he⟩

theorem Reaches.trans {m n : Nat} {nodes nodes' : List Nat} {weight weight' : Nat → Nat}
    (h : Reaches target m c nodes weight)
    (hnext : ∀ d : Configuration, d.Live → d.nodes = nodes → (∀ x, d.weightAt x = weight x) →
      Reaches target n d nodes' weight') :
    Reaches target (m + n) c nodes' weight' := by
  obtain ⟨d, hwithin, hd, hnodes, hweight⟩ := h
  obtain ⟨e, hlater, he⟩ := hnext d hd hnodes hweight
  exact ⟨e, hwithin.trans hlater, he⟩

theorem Reaches.finishes {m n : Nat} {nodes : List Nat} {weight : Nat → Nat}
    (h : Reaches target m c nodes weight)
    (hnext : ∀ d : Configuration, d.Live → d.nodes = nodes → (∀ x, d.weightAt x = weight x) →
      Finishes target n d) : Finishes target (m + n) c := by
  obtain ⟨d, hwithin, hd, hnodes, hweight⟩ := h
  obtain ⟨e, hlater, he⟩ := hnext d hd hnodes hweight
  exact ⟨e, hwithin.trans hlater, he⟩

theorem Reaches.mono {m n : Nat} (hle : m ≤ n) {nodes : List Nat} {weight : Nat → Nat}
    (h : Reaches target m c nodes weight) : Reaches target n c nodes weight := by
  obtain ⟨d, hwithin, hd⟩ := h
  exact ⟨d, hwithin.mono hle, hd⟩

theorem Finishes.mono {m n : Nat} (hle : m ≤ n) (h : Finishes target m c) :
    Finishes target n c := by
  obtain ⟨d, hwithin, hd⟩ := h
  exact ⟨d, hwithin.mono hle, hd⟩

theorem Reaches.congr {n : Nat} {nodes : List Nat} {weight weight' : Nat → Nat}
    (h : Reaches target n c nodes weight) (hweight : ∀ x, weight x = weight' x) :
    Reaches target n c nodes weight' := by
  rwa [← funext hweight]

/-! ### Weights -/

/-- One member is raised to its weight in the target. -/
theorem reaches_raised (hc : c.Live) (htarget : target.Live) {node : Nat} (hmem : node ∈ c.nodes) :
    Reaches target 2 c c.nodes
      (Function.update c.weightAt node (max (c.weightAt node) (target.weightAt node))) := by
  have hbound : target.weightAt node ≤ 2 := (bounded_iff htarget.nodup).mp htarget.bounded node
  have hgap : ∀ gap, ∀ d : Configuration, d.Live → node ∈ d.nodes →
      target.weightAt node - d.weightAt node = gap → Reaches target gap d d.nodes
        (Function.update d.weightAt node (max (d.weightAt node) (target.weightAt node))) := by
    intro gap
    induction gap with
    | zero =>
      intro d hd _ hgap
      refine (Reaches.refl hd).congr fun x => ?_
      rw [Nat.max_eq_left (Nat.le_of_sub_eq_zero hgap), Function.update_eq_self]
    | succ gap ih =>
      intro d hd hin hgap
      have hmove := raise_move hd htarget hin (by omega)
      have hweight := weightAt_reweighed hd.nodup hin (d.weightAt node + 1)
      have hnodes := nodes_reweighed d node (d.weightAt node + 1)
      obtain ⟨e, hwithin, he, henodes, heweight⟩ := ih _ (hmove.live hd) (hnodes ▸ hin)
        (by rw [hweight, if_pos rfl]; omega)
      refine ⟨e, (Nat.add_comm gap 1) ▸ (Within.single hmove).trans hwithin, he,
        henodes.trans hnodes, fun x => ?_⟩
      rw [heweight, Function.update_apply, Function.update_apply, hweight, hweight, if_pos rfl]
      split
      · omega
      · rfl
  exact (hgap _ c hc hmem rfl).mono (by omega)

/-- One member is lowered to its weight in the target, where some weight stays. -/
theorem reaches_lowered (hc : c.Live) (htarget : target.Live) {node : Nat} (hmem : node ∈ c.nodes)
    (hfloor : node ∈ target.nodes ∨ 2 < c.len) (hle : target.weightAt node ≤ c.weightAt node)
    (hstays : 0 < target.weightAt node ∨ ∃ other, other ≠ node ∧ 0 < c.weightAt other) :
    Reaches target 2 c c.nodes (Function.update c.weightAt node (target.weightAt node)) := by
  have hbound : c.weightAt node ≤ 2 := (bounded_iff hc.nodup).mp hc.bounded node
  have hgap : ∀ gap, ∀ d : Configuration, d.Live → d.nodes = c.nodes →
      (∀ x, x ≠ node → d.weightAt x = c.weightAt x) →
      d.weightAt node = target.weightAt node + gap → Reaches target gap d c.nodes
        (Function.update c.weightAt node (target.weightAt node)) := by
    intro gap
    induction gap with
    | zero =>
      intro d hd hnodes hothers hgap
      refine ⟨d, rfl, hd, hnodes, fun x => ?_⟩
      rw [Function.update_apply]
      split
      · rename_i heq
        rw [heq, hgap, Nat.add_zero]
      · exact hothers x ‹_›
    | succ gap ih =>
      intro d hd hnodes hothers hgap
      have hin : node ∈ d.nodes := hnodes ▸ hmem
      have hlen : d.len = c.len := by rw [← length_nodes, ← length_nodes, hnodes]
      have htotal : d.total ≠ 1 := by
        rcases hstays with hpositive | ⟨other, hne, hpositive⟩
        · have hheavy : d.weightAt node ≤ d.total := weightAt_le_total hd.nodup
          omega
        · rw [← hothers other hne] at hpositive
          have hheavy := two_le_total hd.nodup hne hpositive (by omega)
          omega
      have hmove := lower_move hd htarget hin (by omega) (hlen ▸ hfloor) htotal
      have hweight := weightAt_reweighed hd.nodup hin (d.weightAt node - 1)
      obtain ⟨e, hwithin, he⟩ := ih _ (hmove.live hd) ((nodes_reweighed d node _).trans hnodes)
        (fun x hx => by rw [hweight, if_neg hx, hothers x hx])
        (by rw [hweight, if_pos rfl]; omega)
      exact ⟨e, (Nat.add_comm gap 1) ▸ (Within.single hmove).trans hwithin, he⟩
  exact (hgap (c.weightAt node - target.weightAt node) c hc rfl (fun _ _ => rfl) (by omega)).mono
    (by omega)

/-- Members are raised to their weights in the target, one after the other. -/
theorem reaches_all_raised (hc : c.Live) (htarget : target.Live) {members : List Nat}
    (hmem : ∀ node ∈ members, node ∈ c.nodes) :
    Reaches target (2 * members.length) c c.nodes fun node =>
      if node ∈ members then max (c.weightAt node) (target.weightAt node) else c.weightAt node := by
  induction members generalizing c with
  | nil => exact (Reaches.refl hc).congr fun node => (if_neg List.not_mem_nil).symm
  | cons first rest ih =>
    obtain ⟨hfirst, hrest⟩ := List.forall_mem_cons.mp hmem
    rw [List.length_cons, Nat.mul_succ, Nat.add_comm]
    refine (reaches_raised hc htarget hfirst).trans fun d hd hnodes hweight => ?_
    have hlater := ih hd (hnodes ▸ hrest)
    rw [hnodes] at hlater
    refine hlater.congr fun node => ?_
    rw [hweight, Function.update_apply]
    by_cases heq : node = first
    · subst heq
      simp
    · simp [heq]

/-- Members are lowered to their weights in the target, next to one that keeps some. -/
theorem reaches_all_lowered (hc : c.Live) (htarget : target.Live) (members : List Nat)
    (hmem : ∀ node ∈ members, node ∈ c.nodes)
    (hfloor : ∀ node ∈ members, node ∈ target.nodes ∨ 2 < c.len)
    (hle : ∀ node ∈ members, target.weightAt node ≤ c.weightAt node) {anchor : Nat}
    (hanchor : 0 < target.weightAt anchor) (hstands : target.weightAt anchor ≤ c.weightAt anchor) :
    Reaches target (2 * members.length) c c.nodes fun node =>
      if node ∈ members then target.weightAt node else c.weightAt node := by
  induction members generalizing c with
  | nil => exact (Reaches.refl hc).congr fun node => (if_neg List.not_mem_nil).symm
  | cons first rest ih =>
    obtain ⟨hfirst, hrest⟩ := List.forall_mem_cons.mp hmem
    obtain ⟨hfirstfloor, hfloor⟩ := List.forall_mem_cons.mp hfloor
    obtain ⟨hfirstle, hle⟩ := List.forall_mem_cons.mp hle
    have hstays : 0 < target.weightAt first ∨ ∃ other, other ≠ first ∧ 0 < c.weightAt other := by
      by_cases heq : anchor = first
      · exact .inl (heq ▸ hanchor)
      · exact .inr ⟨anchor, heq, Nat.lt_of_lt_of_le hanchor hstands⟩
    rw [List.length_cons, Nat.mul_succ, Nat.add_comm]
    refine (reaches_lowered hc htarget hfirst hfirstfloor hfirstle hstays).trans
      fun d hd hnodes hweight => ?_
    have hlen : d.len = c.len := by rw [← length_nodes, ← length_nodes, hnodes]
    have hsame : ∀ node, d.weightAt node =
        if node = first then target.weightAt node else c.weightAt node := by
      intro node
      rw [hweight, Function.update_apply]
      split
      · rename_i heq
        rw [heq]
      · rfl
    have hatleast : ∀ node, target.weightAt node ≤ c.weightAt node →
        target.weightAt node ≤ d.weightAt node := by
      intro node hnode
      rw [hsame]
      split
      · exact Nat.le_refl _
      · exact hnode
    have hlater := ih hd (hnodes ▸ hrest) (hlen ▸ hfloor)
      (fun node hin => hatleast node (hle node hin)) (hatleast anchor hstands)
    rw [hnodes] at hlater
    refine hlater.congr fun node => ?_
    rw [hsame]
    by_cases heq : node = first
    · simp [heq]
    · simp [heq]

/-- The members of the target come to its weights. -/
theorem finishes_of_nodes (hc : c.Live) (htarget : target.Live) (hnodes : c.nodes = target.nodes) :
    Finishes target 64 c := by
  have hcap : c.nodes.length ≤ 16 := hc.capped
  obtain ⟨anchor, -, hanchor⟩ := (total_pos_iff htarget.nodup).mp htarget.positive
  refine ((reaches_all_raised hc htarget fun _ => id).finishes (n := 2 * c.nodes.length)
    fun d hd hsame hweight => ?_).mono (by omega)
  have hraised : ∀ node, node ∈ c.nodes → target.weightAt node ≤ d.weightAt node := by
    intro node hmem
    rw [hweight, if_pos hmem]
    exact Nat.le_max_right _ _
  obtain ⟨e, hwithin, he, henodes, heweight⟩ := reaches_all_lowered hd htarget d.nodes
    (fun _ => id) (fun node hmem => .inl (hnodes ▸ hsame ▸ hmem))
    (fun node hmem => hraised node (hsame ▸ hmem)) hanchor
    (hraised anchor (hnodes ▸ mem_of_weight hanchor))
  refine ⟨e, hsame ▸ hwithin, order_ext he.nodup htarget.nodup (henodes.trans (hsame.trans hnodes))
    fun node => ?_⟩
  rw [heweight]
  dsimp only
  split
  · rfl
  · rename_i hout
    rw [weightAt_eq_zero hout, weightAt_eq_zero fun hin => hout (hsame ▸ hnodes ▸ hin)]

/-! ### Members -/

/-- Members without any weight leave, one after the other, down to two. -/
theorem reaches_all_left (hc : c.Live) {members : List Nat} (hnodup : members.Nodup)
    (hmem : ∀ node ∈ members, node ∈ c.nodes) (hzero : ∀ node ∈ members, c.weightAt node = 0)
    (hgone : ∀ node ∈ members, target.weightAt node = 0)
    (hfloor : 2 + members.length ≤ c.nodes.length) :
    Reaches target members.length c (c.nodes.filter (· ∉ members)) c.weightAt := by
  induction members generalizing c with
  | nil => simpa using Reaches.refl hc
  | cons first rest ih =>
    obtain ⟨hnew, hnodup⟩ := List.nodup_cons.mp hnodup
    obtain ⟨hfirst, hrest⟩ := List.forall_mem_cons.mp hmem
    obtain ⟨hfirstzero, hzero⟩ := List.forall_mem_cons.mp hzero
    obtain ⟨hfirstgone, hgone⟩ := List.forall_mem_cons.mp hgone
    rw [List.length_cons] at hfloor
    have hmove := leave_move hc hfirst hfirstzero hfirstgone
      (by rw [← length_nodes]; omega)
    have hweight := weightAt_without hc.nodup hfirst hfirstzero
    have hnodes := nodes_without c first
    have hlength : (c.without first).nodes.length + 1 = c.nodes.length := by
      rw [hnodes, ← hc.nodup.erase_eq_filter, List.length_erase_of_mem hfirst]
      omega
    have hlater := ih (hmove.live hc) hnodup
      (fun node hin => by
        rw [hnodes, List.mem_filter]
        have hne : node ≠ first := fun heq => hnew (heq ▸ hin)
        exact ⟨hrest node hin, by simpa using hne⟩)
      (fun node hin => (hweight node).trans (hzero node hin)) hgone (by omega)
    obtain ⟨d, hwithin, hd, hdnodes, hdweight⟩ := hlater
    refine ⟨d, ((Within.single hmove).trans hwithin).mono (Nat.add_comm 1 _).le, hd, ?_,
      fun node => (hdweight node).trans (hweight node)⟩
    rw [hdnodes, hnodes, List.filter_filter]
    refine List.filter_congr fun node _ => ?_
    by_cases heq : node = first <;> simp [heq, hnew]

/-- A route to these nodes, whatever they weigh. -/
def Comes (target : Configuration) (n : Nat) (c : Configuration) (nodes : List Nat) : Prop :=
  ∃ d, Within (Moves target) n c d ∧ d.Live ∧ d.nodes = nodes

theorem Reaches.comes {n : Nat} {nodes : List Nat} {weight : Nat → Nat}
    (h : Reaches target n c nodes weight) : Comes target n c nodes := by
  obtain ⟨d, hwithin, hd, hnodes, -⟩ := h
  exact ⟨d, hwithin, hd, hnodes⟩

theorem Comes.mono {m n : Nat} (hle : m ≤ n) {nodes : List Nat} (h : Comes target m c nodes) :
    Comes target n c nodes := by
  obtain ⟨d, hwithin, hd⟩ := h
  exact ⟨d, hwithin.mono hle, hd⟩

theorem Comes.trans {m n : Nat} {nodes nodes' : List Nat} (h : Comes target m c nodes)
    (hnext : ∀ d : Configuration, d.Live → d.nodes = nodes → Comes target n d nodes') :
    Comes target (m + n) c nodes' := by
  obtain ⟨d, hwithin, hd, hnodes⟩ := h
  obtain ⟨e, hlater, he⟩ := hnext d hd hnodes
  exact ⟨e, hwithin.trans hlater, he⟩

theorem Comes.finishes {m n : Nat} {nodes : List Nat} (h : Comes target m c nodes)
    (hnext : ∀ d : Configuration, d.Live → d.nodes = nodes → Finishes target n d) :
    Finishes target (m + n) c := by
  obtain ⟨d, hwithin, hd, hnodes⟩ := h
  obtain ⟨e, hlater, he⟩ := hnext d hd hnodes
  exact ⟨e, hwithin.trans hlater, he⟩

/-- A node of the target joins. -/
theorem comes_joined (hc : c.Live) (htarget : target.Live) {node index : Nat}
    (hnew : node ∉ c.nodes) (hindex : target.nodes[index]? = some node)
    (hle : index ≤ c.nodes.length) (hroom : c.nodes.length < maxMembers) :
    Comes target 1 c (c.nodes.insertIdx index node) := by
  have hmove := join_move hc htarget hnew hindex hle hroom
  exact ⟨_, .single hmove, hmove.live hc, nodes_joined c node index⟩

theorem filter_mem_eq {keeps all : List Nat} (hnodup : all.Nodup) (hsub : keeps.Sublist all) :
    all.filter (· ∈ keeps) = keeps := by
  have hmem : ∀ node ∈ keeps, decide (node ∈ keeps) = true := fun node h => decide_eq_true h
  have hinside := hsub.filter (· ∈ keeps)
  rw [List.filter_eq_self.mpr hmem] at hinside
  refine (hinside.eq_of_length_le ?_).symm
  refine (List.Nodup.subperm (hnodup.filter _) fun node h => ?_).length_le
  simpa using (List.mem_filter.mp h).2

/-- **The members without a weight in the target are retired**, as long as two stay and one of
those has one. -/
theorem comes_kept (hc : c.Live) (htarget : target.Live) {keeps : List Nat}
    (hsub : keeps.Sublist c.nodes) (htwo : 2 ≤ keeps.length)
    (hgone : ∀ node ∈ c.nodes, node ∉ keeps → target.weightAt node = 0) {anchor : Nat}
    (hmem : anchor ∈ keeps) (hanchor : 0 < target.weightAt anchor) :
    Comes target 50 c keeps := by
  have hcap : c.nodes.length ≤ 16 := hc.capped
  let leaving := c.nodes.filter (· ∉ keeps)
  have hdistinct : leaving.Nodup := hc.nodup.filter _
  have hleaving : ∀ node ∈ leaving, node ∈ c.nodes ∧ node ∉ keeps := fun node h => by
    simpa [leaving] using h
  have hstaying : c.nodes.filter (· ∉ leaving) = keeps := by
    refine (List.filter_congr fun node h => ?_).trans (filter_mem_eq hc.nodup hsub)
    simp [leaving, h]
  have hcount : keeps.length + leaving.length = c.nodes.length := by
    have hsplit := List.length_eq_length_filter_add (l := c.nodes) (· ∈ keeps)
    rw [filter_mem_eq hc.nodup hsub] at hsplit
    rw [hsplit]
    simp [leaving]
  have hzero : ∀ node ∈ leaving, target.weightAt node = 0 := fun node h =>
    hgone node (hleaving node h).1 (hleaving node h).2
  obtain ⟨d, hraise, hd, hnodes, hweight⟩ := reaches_raised hc htarget (hsub.subset hmem)
  have hstands : target.weightAt anchor ≤ d.weightAt anchor := by
    rw [hweight, Function.update_self]
    exact Nat.le_max_right _ _
  have hwide : leaving ≠ [] → 2 < d.len := by
    intro hne
    have hpositive := List.length_pos_iff.mpr hne
    rw [← length_nodes, hnodes]
    omega
  obtain ⟨e, hlower, he, henodes, heweight⟩ := reaches_all_lowered hd htarget leaving
    (fun node h => hnodes ▸ (hleaving node h).1)
    (fun node h => .inr (hwide (List.ne_nil_of_mem h)))
    (fun node h => (hzero node h) ▸ Nat.zero_le _) hanchor hstands
  obtain ⟨last, hleave, hlast, hlastnodes, -⟩ : Reaches target leaving.length e _ _ :=
    reaches_all_left he hdistinct (fun node h => by rw [henodes, hnodes]; exact (hleaving node h).1)
    (fun node h => by rw [heweight]; exact (if_pos h).trans (hzero node h)) hzero
    (by rw [henodes, hnodes]; omega)
  refine ⟨last, ((hraise.trans hlower).trans hleave).mono (by omega), hlast, ?_⟩
  rw [hlastnodes, henodes, hnodes, hstaying]

/-! ### Routes to the target -/

/-- The first element a list lacks of a longer one goes in at its index there. -/
theorem exists_missing {part all : List Nat} (hnodup : all.Nodup) (hsub : part.Sublist all)
    (hne : part ≠ all) : ∃ index node, all[index]? = some node ∧ node ∉ part ∧
      index ≤ part.length ∧ (part.insertIdx index node).Sublist all := by
  induction hsub with
  | slnil => exact absurd rfl hne
  | cons first hsub ih =>
    obtain ⟨hnew, -⟩ := List.nodup_cons.mp hnodup
    exact ⟨0, first, rfl, fun hmem => hnew (hsub.subset hmem), Nat.zero_le _, hsub.cons_cons first⟩
  | cons_cons first hsub ih =>
    obtain ⟨hnew, hnodup⟩ := List.nodup_cons.mp hnodup
    obtain ⟨index, node, hindex, hmissing, hle, hinsert⟩ :=
      ih hnodup fun heq => hne (congrArg _ heq)
    refine ⟨index + 1, node, hindex, fun hmem => ?_, Nat.succ_le_succ hle, hinsert.cons_cons first⟩
    rcases List.mem_cons.mp hmem with rfl | hmem
    · exact hnew (List.mem_of_getElem? hindex)
    · exact hmissing hmem

/-- **A part of the target's order grows into it.** -/
theorem finishes_of_sublist (hc : c.Live) (htarget : target.Live)
    (hsub : c.nodes.Sublist target.nodes) : Finishes target 80 c := by
  have hcap : target.nodes.length ≤ 16 := htarget.capped
  have hgap : ∀ gap, ∀ d : Configuration, d.Live → d.nodes.Sublist target.nodes →
      target.nodes.length - d.nodes.length = gap → Finishes target (gap + 64) d := by
    intro gap
    induction gap with
    | zero =>
      intro d hd hsub hgap
      have hall := hsub.eq_of_length_le (Nat.le_of_sub_eq_zero hgap)
      exact (finishes_of_nodes hd htarget hall).mono (by omega)
    | succ gap ih =>
      intro d hd hsub hgap
      have hne : d.nodes ≠ target.nodes := fun heq => by
        rw [heq] at hgap
        omega
      obtain ⟨index, node, hindex, hnew, hle, hinsert⟩ :=
        exists_missing htarget.nodup hsub hne
      have hroom : d.nodes.length < maxMembers := by
        have hcap : maxMembers = 16 := rfl
        omega
      refine ((comes_joined hd htarget hnew hindex hle hroom).finishes
        fun e he henodes => ih e he (henodes ▸ hinsert) ?_).mono (by omega)
      rw [henodes, List.length_insertIdx_of_le_length hle]
      omega
  exact (hgap _ c hc hsub rfl).mono (by omega)

/-- Members that stand as in the target and hold all of its weight lead to it. -/
theorem finishes_of_kept (hc : c.Live) (htarget : target.Live) {keeps : List Nat}
    (hsub : keeps.Sublist c.nodes) (hinto : keeps.Sublist target.nodes) (htwo : 2 ≤ keeps.length)
    (hgone : ∀ node ∈ c.nodes, node ∉ keeps → target.weightAt node = 0) {anchor : Nat}
    (hmem : anchor ∈ keeps) (hanchor : 0 < target.weightAt anchor) : Finishes target 130 c :=
  (comes_kept hc htarget hsub htwo hgone hmem hanchor).finishes fun _ hd hnodes =>
    finishes_of_sublist hd htarget (hnodes ▸ hinto)

/-- One more member of the target, and with it some that stand as in the target. -/
theorem finishes_of_joined (hc : c.Live) (htarget : target.Live) {node index : Nat}
    (hnew : node ∉ c.nodes) (hindex : target.nodes[index]? = some node)
    (hle : index ≤ c.nodes.length) (hroom : c.nodes.length < maxMembers) {keeps : List Nat}
    (hsub : keeps.Sublist (c.nodes.insertIdx index node)) (hinto : keeps.Sublist target.nodes)
    (htwo : 2 ≤ keeps.length) (hnode : node ∈ keeps)
    (hgone : ∀ other ∈ c.nodes, other ∉ keeps → target.weightAt other = 0) {anchor : Nat}
    (hmem : anchor ∈ keeps) (hanchor : 0 < target.weightAt anchor) : Finishes target 131 c := by
  refine (comes_joined hc htarget hnew hindex hle hroom).finishes fun d hd hnodes =>
    finishes_of_kept hd htarget (hnodes ▸ hsub) hinto htwo (fun other hother hout => ?_) hmem hanchor
  rw [hnodes, List.mem_insertIdx hle] at hother
  rcases hother with rfl | hother
  · exact absurd hnode hout
  · exact hgone other hother hout

/-- The one member that the target gives weight to. -/
structure Sole (target c : Configuration) (node : Nat) : Prop where
  mem : node ∈ c.nodes
  weighs : 0 < target.weightAt node
  others : ∀ other ∈ c.nodes, other ≠ node → target.weightAt other = 0

theorem exists_third {all : List Nat} (hnodup : all.Nodup) (hthree : 3 ≤ all.length)
    (node other : Nat) : ∃ third ∈ all, third ≠ node ∧ third ≠ other := by
  by_contra hnone
  have hsub : ∀ x ∈ all, x ∈ [node, other] := by
    intro x hx
    by_contra hout
    simp only [List.mem_cons, List.not_mem_nil, or_false, not_or] at hout
    exact hnone ⟨x, hx, hout⟩
  have hle := (hnodup.subperm hsub).length_le
  rw [List.length_cons, List.length_singleton] at hle
  omega

theorem pair_sublist {all : List Nat} {node other : Nat} (hnode : node ∈ all) (hother : other ∈ all)
    (hne : node ≠ other) : [node, other].Sublist all ∨ [other, node].Sublist all := by
  obtain ⟨before, after, rfl⟩ := List.append_of_mem hnode
  rcases List.mem_append.mp hother with hother | hother
  · exact .inr ((List.singleton_sublist.mpr hother).append
      (List.singleton_sublist.mpr List.mem_cons_self))
  · have hlater : other ∈ after := (List.mem_cons.mp hother).resolve_left hne.symm
    exact .inl (((List.singleton_sublist.mpr hlater).cons_cons node).trans
      (List.sublist_append_right _ _))

theorem exists_behind {all : List Nat} {node : Nat} (hmem : node ∈ all)
    (hlast : all.getLast? ≠ some node) : ∃ other, other ≠ node ∧ [node, other].Sublist all := by
  obtain ⟨before, last, rfl⟩ := all.eq_nil_or_concat'.resolve_left (List.ne_nil_of_mem hmem)
  have hne : last ≠ node := fun heq => hlast (by simp [heq])
  have hbefore : node ∈ before := by simpa [hne.symm] using hmem
  exact ⟨last, hne, (List.singleton_sublist.mpr hbefore).append (List.Sublist.refl [last])⟩

theorem exists_before {all : List Nat} {node other : Nat} (hlast : all.getLast? = some node)
    (hother : other ∈ all) (hne : other ≠ node) : [other, node].Sublist all := by
  obtain ⟨before, rfl⟩ := List.getLast?_eq_some_iff.mp hlast
  have hbefore : other ∈ before := by simpa [hne] using hother
  exact (List.singleton_sublist.mpr hbefore).append (List.Sublist.refl [node])

/-- The sole member stays with one other, and a third joins them that stands to it as in the
target. -/
theorem finishes_through_pair (hc : c.Live) (htarget : target.Live) {node : Nat}
    (hsole : Sole target c node) {pair : List Nat} (hsub : pair.Sublist c.nodes)
    (htwo : pair.length = 2) (hin : node ∈ pair) {index other : Nat} (hnew : other ∉ pair)
    (hindex : target.nodes[index]? = some other) (hle : index ≤ 2) {keeps : List Nat}
    (hkeeps : keeps.Sublist (pair.insertIdx index other)) (hinto : keeps.Sublist target.nodes)
    (hlength : 2 ≤ keeps.length) (hother : other ∈ keeps) (hkept : node ∈ keeps) :
    Finishes target 181 c := by
  have hcome : Comes target 50 c pair := comes_kept hc htarget hsub htwo.ge
    (fun x hx hout => hsole.others x hx fun heq => hout (heq ▸ hin)) hin hsole.weighs
  refine hcome.finishes (n := 131) fun d hd hnodes => ?_
  refine finishes_of_joined hd htarget (hnodes ▸ hnew) hindex ?_ ?_ (hnodes ▸ hkeeps) hinto hlength
    hother (fun x hx hout => ?_) hkept hsole.weighs
  · rw [hnodes, htwo]
    exact hle
  · rw [hnodes, htwo]
    decide
  · exact hsole.others x (hsub.subset (hnodes ▸ hx)) fun heq => hout (heq ▸ hkept)

/-- **A sole member among three or more leads to the target**, unless it is behind all others and
the target is that member and one other. -/
theorem finishes_of_sole (hc : c.Live) (htarget : target.Live) (hpair : 2 ≤ target.len) {node : Nat}
    (hsole : Sole target c node) (hthree : 3 ≤ c.nodes.length)
    (hfirst : ¬(target.len = 2 ∧ target.nodes.head? = some node ∧ c.nodes.getLast? = some node)) :
    Finishes target 181 c := by
  have hwithin := mem_of_weight hsole.weighs
  have hdistinct := htarget.nodup
  rw [← length_nodes] at hpair hfirst
  obtain ⟨first, second, rest, hnodes⟩ : ∃ first second rest,
      target.nodes = first :: second :: rest := by
    cases hnodes : target.nodes with
    | nil => simp [hnodes] at hpair
    | cons first rest =>
      cases rest with
      | nil => simp [hnodes] at hpair
      | cons second rest => exact ⟨first, second, rest, rfl⟩
  rw [hnodes] at hwithin hdistinct hfirst
  obtain ⟨hnew, hrest⟩ := List.nodup_cons.mp hdistinct
  have hbegins : ∀ {x : Nat}, x ∈ second :: rest → [first, x].Sublist target.nodes := by
    intro x hx
    rw [hnodes]
    exact (List.singleton_sublist.mpr hx).cons_cons first
  by_cases hlead : node = first
  · subst hlead
    by_cases hlast : c.nodes.getLast? = some node
    · -- all others stand before it: the target's third can join behind it
      cases rest with
      | nil => exact absurd ⟨rfl, rfl, hlast⟩ hfirst
      | cons third rest =>
        obtain ⟨other, hother, hne, hthird⟩ := exists_third hc.nodup hthree node third
        have hout : third ∉ [other, node] := by
          have hapart : third ≠ node := fun heq => hnew (by simp [heq])
          simp [hthird.symm, hapart]
        have hindex : target.nodes[2]? = some third := by rw [hnodes]; rfl
        exact finishes_through_pair hc htarget hsole (exists_before hlast hother hne) rfl (by simp)
          hout hindex (Nat.le_refl 2) (List.sublist_cons_self other [node, third])
          (hbegins (by simp)) (Nat.le_refl 2) (by simp) (by simp)
    · -- another stands behind it: the target's second is that one, or can join between them
      obtain ⟨other, hne, hsub⟩ := exists_behind hsole.mem hlast
      by_cases hother : other = second
      · subst hother
        refine (finishes_of_kept hc htarget hsub (hbegins (by simp)) (Nat.le_refl 2)
          (fun x hx hout => hsole.others x hx fun heq => hout (by simp [heq])) (by simp)
          hsole.weighs).mono (by decide)
      · have hout : second ∉ [node, other] := by
          have hapart : second ≠ node := fun heq => hnew (by simp [heq])
          simp [Ne.symm hother, hapart]
        have hindex : target.nodes[1]? = some second := by rw [hnodes]; rfl
        exact finishes_through_pair hc htarget hsole hsub rfl (by simp) hout hindex (by decide)
          ((List.nil_sublist [other]).cons_cons second |>.cons_cons node) (hbegins (by simp))
          (Nat.le_refl 2) (by simp) (by simp)
  · -- the target's first joins in front, or is one of several others
    obtain ⟨other, hother, hne, hapart⟩ := exists_third hc.nodup hthree node first
    have hindex : target.nodes[0]? = some first := by rw [hnodes]; rfl
    have hlater : node ∈ second :: rest := (List.mem_cons.mp hwithin).resolve_left hlead
    have hgo : ∀ pair : List Nat, pair.Sublist c.nodes → pair.length = 2 → node ∈ pair →
        first ∉ pair → Finishes target 181 c := fun pair hsub htwo hin hout =>
      finishes_through_pair hc htarget hsole hsub htwo hin hout hindex (Nat.zero_le 2)
        ((List.singleton_sublist.mpr hin).cons_cons first) (hbegins hlater) (Nat.le_refl 2)
        (by simp) (by simp)
    rcases pair_sublist hsole.mem hother hne.symm with hsub | hsub
    · exact hgo _ hsub rfl (by simp) (by simp [Ne.symm hlead, hapart.symm])
    · exact hgo _ hsub rfl (by simp) (by simp [Ne.symm hlead, hapart.symm])

/-! ### From any order that the candidates lead from -/

end Routes

/-- The members that the target gives weight to, in their order. -/
def kept (target : Configuration) (nodes : List Nat) : List Nat :=
  nodes.filter fun node => target.weightAt node != 0

/-- **The orders that the candidates lead from.** The members that keep a weight stand as in the
target. And where there is one such member only, it is not behind all others with a target that is
it and one other; and of two members either both stand as in the target, or one more node of the
target can join at its index without upsetting the order. -/
structure Orderly (target c : Configuration) : Prop where
  keeps : (kept target c.nodes).Sublist target.nodes
  leads : ∀ node, kept target c.nodes = [node] →
    ¬(target.len = 2 ∧ target.nodes.head? = some node ∧ c.nodes.getLast? = some node)
  opens : ∀ node, kept target c.nodes = [node] → c.len = 2 → c.nodes.Sublist target.nodes ∨
    ∃ index other, index ≤ 2 ∧ target.nodes[index]? = some other ∧ other ∉ c.nodes ∧
      (kept target (c.nodes.insertIdx index other)).Sublist target.nodes

section Orders

variable {target c : Configuration}

theorem mem_kept {nodes : List Nat} {node : Nat} :
    node ∈ kept target nodes ↔ node ∈ nodes ∧ 0 < target.weightAt node := by
  simp [kept, Nat.pos_iff_ne_zero]

theorem weight_of_not_kept {nodes : List Nat} {node : Nat} (hmem : node ∈ nodes)
    (h : node ∉ kept target nodes) : target.weightAt node = 0 := by
  by_contra hne
  exact h (mem_kept.mpr ⟨hmem, Nat.pos_of_ne_zero hne⟩)

theorem sole_of_kept {node : Nat} (h : kept target c.nodes = [node]) : Sole target c node where
  mem := (mem_kept.mp (h ▸ List.mem_singleton_self node)).1
  weighs := (mem_kept.mp (h ▸ List.mem_singleton_self node)).2
  others other hother hne := weight_of_not_kept hother fun hin => by
    rw [h, List.mem_singleton] at hin
    exact hne hin

/-- Two members with a weight in the target, standing as they do there, lead to it. -/
theorem finishes_of_two (hc : c.Live) (htarget : target.Live)
    (hkeeps : (kept target c.nodes).Sublist target.nodes)
    (htwo : 2 ≤ (kept target c.nodes).length) : Finishes target 130 c := by
  obtain ⟨anchor, hmem⟩ := List.exists_mem_of_length_pos (Nat.zero_lt_of_lt htwo)
  exact finishes_of_kept hc htarget List.filter_sublist hkeeps htwo
    (fun node hnode hout => weight_of_not_kept hnode hout) hmem (mem_kept.mp hmem).2

/-- What joins is kept exactly when it has a weight in the target. -/
theorem length_kept_joined {node index : Nat} {nodes : List Nat} (hle : index ≤ nodes.length) :
    (kept target (nodes.insertIdx index node)).length =
      (kept target nodes).length + if 0 < target.weightAt node then 1 else 0 := by
  have hperm := (List.perm_insertIdx node nodes hle).filter fun x => target.weightAt x != 0
  rw [kept, hperm.length_eq, List.filter_cons, kept]
  by_cases hzero : target.weightAt node = 0
  · simp [hzero]
  · simp [hzero, Nat.pos_of_ne_zero hzero]

theorem kept_sublist_joined (nodes : List Nat) (index node : Nat) :
    (kept target nodes).Sublist (kept target (nodes.insertIdx index node)) :=
  (List.sublist_insertIdx nodes index node).filter _

theorem filter_insertIdx {p : Nat → Bool} {node index : Nat} {nodes : List Nat}
    (hle : index ≤ nodes.length) (hnode : p node = false) :
    (nodes.insertIdx index node).filter p = nodes.filter p := by
  refine (((List.sublist_insertIdx nodes index node).filter p).eq_of_length ?_).symm
  rw [((List.perm_insertIdx node nodes hle).filter p).length_eq,
    List.filter_cons_of_neg (by rw [hnode]; exact Bool.false_ne_true)]

theorem filter_erase {p : Nat → Bool} {node : Nat} {nodes : List Nat} (hnodup : nodes.Nodup)
    (hnode : p node = false) : (nodes.erase node).filter p = nodes.filter p := by
  rw [hnodup.erase_eq_filter, List.filter_filter]
  refine List.filter_congr fun other _ => ?_
  by_cases hother : other = node
  · simp [hother, hnode]
  · simp [hother]

theorem kept_joined_zero {node index : Nat} {nodes : List Nat} (hle : index ≤ nodes.length)
    (hzero : target.weightAt node = 0) :
    kept target (nodes.insertIdx index node) = kept target nodes :=
  filter_insertIdx hle (by simp [hzero])

/-- Two members open up to a third. -/
theorem finishes_of_open (hc : c.Live) (htarget : target.Live) (hpair : 2 ≤ target.len)
    (horder : Orderly target c) {node : Nat} (hnode : kept target c.nodes = [node])
    (htwo : c.len = 2) : Finishes target 182 c := by
  rcases horder.opens node hnode htwo with hsub | ⟨index, other, hle, hindex, hnew, hkeeps⟩
  · exact (finishes_of_sublist hc htarget hsub).mono (by decide)
  · have hlength : c.nodes.length = 2 := (length_nodes c).trans htwo
    have hfits : index ≤ c.nodes.length := hlength.symm ▸ hle
    have hroom : c.nodes.length < maxMembers := by rw [hlength]; decide
    refine (comes_joined hc htarget hnew hindex hfits hroom).finishes (n := 181)
      fun d hd hnodes => ?_
    by_cases hzero : target.weightAt other = 0
    · have hsame : kept target d.nodes = [node] := by
        rw [hnodes, kept_joined_zero hfits hzero, hnode]
      refine finishes_of_sole hd htarget hpair (sole_of_kept hsame) ?_ ?_
      · rw [hnodes, List.length_insertIdx_of_le_length hfits, hlength]
      · -- behind all others now, it was so before: the other of the two joined in front of it
        rintro ⟨hshort, hhead, hlast⟩
        refine horder.leads node hnode ⟨hshort, hhead, ?_⟩
        obtain ⟨x, y, hxy⟩ := List.length_eq_two.mp hlength
        have hone : index = 1 := by
          have hlt := (List.getElem?_eq_some_iff.mp hindex).1
          rw [length_nodes, hshort] at hlt
          have hne : index ≠ 0 := by
            rintro rfl
            rw [List.head?_eq_getElem?, hindex] at hhead
            exact hnew (Option.some.inj hhead ▸ (sole_of_kept hnode).mem)
          omega
        rw [hnodes, hxy, hone] at hlast
        rw [hxy]
        exact hlast
    · refine (finishes_of_two hd htarget (hnodes ▸ hkeeps) ?_).mono (by decide)
      rw [hnodes, length_kept_joined hfits, hnode, if_pos (Nat.pos_of_ne_zero hzero)]
      exact Nat.le_refl 2

/-- The first node that the target gives weight to. -/
theorem exists_first (htarget : target.Live) : ∃ index node, target.nodes[index]? = some node ∧
    0 < target.weightAt node ∧ ∀ i other : Nat, i < index → target.nodes[i]? = some other →
      target.weightAt other = 0 := by
  obtain ⟨voter, hmem, hpositive⟩ := (total_pos_iff htarget.nodup).mp htarget.positive
  obtain ⟨place, hplace⟩ := List.mem_iff_getElem?.mp hmem
  have hsome : ∃ index node, target.nodes[index]? = some node ∧ 0 < target.weightAt node :=
    ⟨place, voter, hplace, hpositive⟩
  obtain ⟨node, hnode, hweight⟩ := Nat.find_spec hsome
  refine ⟨Nat.find hsome, node, hnode, hweight, fun i other hlt hother => ?_⟩
  by_contra hne
  exact Nat.find_min hsome hlt ⟨other, hother, Nat.pos_of_ne_zero hne⟩

/-- A list longer than another has an element of its own among its first ones. -/
theorem exists_fresh {all nodes : List Nat} (hnodup : all.Nodup)
    (hlt : nodes.length < all.length) : ∃ index node, index ≤ nodes.length ∧
      all[index]? = some node ∧ node ∉ nodes := by
  by_contra hnone
  have hsub : all.take (nodes.length + 1) ⊆ nodes := by
    intro node hnode
    by_contra hout
    obtain ⟨index, hindex, hget⟩ := List.mem_take_iff_getElem.mp hnode
    exact hnone ⟨index, node, by omega, List.getElem?_eq_some_iff.mpr ⟨_, hget⟩, hout⟩
  have hle := ((hnodup.sublist (List.take_sublist _ _)).subperm hsub).length_le
  rw [List.length_take] at hle
  omega

/-- Where the target gives weight to no member, one of its members can always be brought in among
two or more. -/
theorem finishes_of_none (hc : c.Live) (htarget : target.Live) (hpair : 2 ≤ target.len)
    (hnone : kept target c.nodes = []) (htwo : 2 ≤ c.len) : Finishes target 200 c := by
  have hcap : target.nodes.length ≤ 16 := htarget.capped
  have hgone : ∀ node ∈ c.nodes, target.weightAt node = 0 := fun node hmem =>
    weight_of_not_kept hmem (by rw [hnone]; exact List.not_mem_nil)
  obtain ⟨index, node, hindex, hpositive, hbefore⟩ := exists_first htarget
  have hlt : index < target.nodes.length := (List.getElem?_eq_some_iff.mp hindex).1
  -- the first weighted node joins, and is the sole one of three or more
  have henters : ∀ d : Configuration, d.Live → (∀ x ∈ d.nodes, target.weightAt x = 0) →
      2 ≤ d.nodes.length → d.nodes.length < 16 → index ≤ d.nodes.length →
      Finishes target 182 d := by
    intro d hd hdgone hdtwo hroom hle
    have hnew : node ∉ d.nodes := fun hin => by
      rw [hdgone node hin] at hpositive
      exact Nat.lt_irrefl 0 hpositive
    refine (comes_joined hd htarget hnew hindex hle hroom).finishes (n := 181)
      fun e he hnodes => ?_
    have hsole : Sole target e node := by
      refine ⟨?_, hpositive, fun x hx hne => ?_⟩
      · rw [hnodes, List.mem_insertIdx hle]
        exact .inl rfl
      · rw [hnodes, List.mem_insertIdx hle] at hx
        exact hdgone x (hx.resolve_left hne)
    refine finishes_of_sole he htarget hpair hsole ?_ ?_
    · rw [hnodes, List.length_insertIdx_of_le_length hle]
      omega
    · -- the head of a target of two joins in front of all others
      rintro ⟨-, hhead, hlast⟩
      have hzero : index = 0 := by
        rw [List.head?_eq_getElem?] at hhead
        exact ((List.getElem?_inj hlt htarget.nodup).mp (hindex.trans hhead.symm))
      rw [hnodes, hzero, List.insertIdx_zero] at hlast
      obtain ⟨x, rest, hcons⟩ := List.exists_cons_of_length_pos (Nat.zero_lt_of_lt hdtwo)
      rw [hcons, List.getLast?_cons_cons, ← hcons] at hlast
      exact hnew (List.mem_of_getLast? hlast)
  -- nodes without weight in the target join until it can
  have hwidens : ∀ gap, ∀ d : Configuration, d.Live → (∀ x ∈ d.nodes, target.weightAt x = 0) →
      2 ≤ d.nodes.length → d.nodes.length < 16 → index - d.nodes.length = gap →
      Finishes target (gap + 182) d := by
    intro gap
    induction gap with
    | zero =>
      intro d hd hdgone hdtwo hroom hgap
      exact (henters d hd hdgone hdtwo hroom (Nat.le_of_sub_eq_zero hgap)).mono (by omega)
    | succ gap ih =>
      intro d hd hdgone hdtwo hroom hgap
      obtain ⟨i, other, hi, hother, hnew⟩ :=
        exists_fresh htarget.nodup (show d.nodes.length < target.nodes.length by omega)
      refine ((comes_joined hd htarget hnew hother hi hroom).finishes fun e he hnodes =>
        ih e he (fun x hx => ?_) ?_ ?_ ?_).mono (by omega)
      · rw [hnodes, List.mem_insertIdx hi] at hx
        rcases hx with rfl | hx
        · exact hbefore i x (by omega) hother
        · exact hdgone x hx
      all_goals
        rw [hnodes, List.length_insertIdx_of_le_length hi]
        omega
  have hgap : index - c.nodes.length ≤ 14 := by
    rw [← length_nodes] at htwo
    omega
  rw [← length_nodes] at htwo
  by_cases hroom : c.nodes.length < 16
  · exact (hwidens _ c hc hgone htwo hroom rfl).mono (by omega)
  · -- a full cluster first makes room, and keeps a voter
    obtain ⟨voter, hvoter, hweight⟩ := (total_pos_iff hc.nodup).mp hc.positive
    obtain ⟨leaving, hleaving, hne, -⟩ := exists_third hc.nodup (by omega) voter voter
    have hwide : 2 < c.len := by
      rw [← length_nodes]
      omega
    have hzero := hgone leaving hleaving
    obtain ⟨d, hlower, hd, hdnodes, hdweight⟩ := reaches_lowered hc htarget hleaving (.inr hwide)
      (hzero ▸ Nat.zero_le _) (.inr ⟨voter, hne.symm, hweight⟩)
    have hleave : Moves target d (d.without leaving) :=
      leave_move hd (hdnodes ▸ hleaving) (by rw [hdweight, Function.update_self, hzero]) hzero
        (by rw [← length_nodes, hdnodes]; omega)
    have hnodes : (d.without leaving).nodes = c.nodes.erase leaving := by
      rw [nodes_without, hdnodes, hc.nodup.erase_eq_filter]
    have hlength : (d.without leaving).nodes.length = c.nodes.length - 1 := by
      rw [hnodes, List.length_erase_of_mem hleaving]
    have hcap' : c.nodes.length ≤ 16 := hc.capped
    obtain ⟨e, hlater, he⟩ := hwidens _ (d.without leaving) (hleave.live hd)
      (fun x hx => hgone x (List.mem_of_mem_erase (hnodes ▸ hx))) (by omega) (by omega) rfl
    exact ⟨e, ((hlower.trans (.single hleave)).trans hlater).mono (by omega), he⟩

/-- **The candidates lead from an orderly configuration to the target.** -/
theorem finishes_of_orderly (hc : c.Live) (htarget : target.Live) (htwo : 2 ≤ c.len)
    (hpair : 2 ≤ target.len) (horder : Orderly target c) : Finishes target 200 c := by
  cases hkept : kept target c.nodes with
  | nil => exact finishes_of_none hc htarget hpair hkept htwo
  | cons node others =>
    cases others with
    | nil =>
      by_cases hlen : c.len = 2
      · exact (finishes_of_open hc htarget hpair horder hkept hlen).mono (by decide)
      · refine (finishes_of_sole hc htarget hpair (sole_of_kept hkept) ?_
          (horder.leads node hkept)).mono (by decide)
        rw [length_nodes]
        omega
    | cons other others =>
      refine (finishes_of_two hc htarget horder.keeps ?_).mono (by decide)
      rw [hkept, List.length_cons, List.length_cons]
      omega

/-- **No candidate takes out a member that keeps a weight.** -/
theorem Moves.kept_sublist (h : Moves target c d) (hc : c.Live) (htarget : target.nodes.Nodup) :
    (kept target c.nodes).Sublist (kept target d.nodes) := by
  rcases h.nodes hc htarget with heq | ⟨index, node, -, -, -, heq⟩ | ⟨node, -, hgone, -, heq⟩
  · rw [heq]
  · rw [heq]
    exact kept_sublist_joined c.nodes index node
  · have hsame : kept target d.nodes = kept target c.nodes := by
      rw [heq]
      exact filter_erase hc.nodup (by simp [hgone])
    rw [hsame]

end Orders

end Solve

end UvrrCore
