import UvrrCore.Replacement

/-!
# The forced replacement

`forcedSteps` computes the operations that replace one identity by another from the configuration
as it is. Seen through the weights (`Configuration.profile`) a configuration is a `Profile`, the
operations are `Move`s, the fold of a batch is `Profile.batch` while the eras last, the planner is
`Profile.greedy`, and the forced steps are the schedule of the profile.
-/

namespace UvrrCore

/-- A move as the operation it stands for. -/
def Move.op (old new place : Nat) : Move → SystemOperation
  | decrement => .decrement old
  | increment => .increment new
  | join => .join new place
  | leave => .leave old
  | double => .double
  | halve => .halve

namespace Configuration

/-- The members that stay. -/
def survivors (c : Configuration) (old new : Nat) : List Member :=
  c.order.filter fun member => member.node != old && member.node != new

/-- The weights a replacement goes by. -/
def profile (c : Configuration) (old new : Nat) : Profile where
  rest := (c.survivors old new).map Member.weight
  old := c.weightOf old
  new := c.weightOf new

/-- Where the new identity joins. -/
def place (c : Configuration) (old : Nat) : Nat := (c.indexOf old).getD c.len

theorem weightOf_eq (c : Configuration) (node : Nat) :
    c.weightOf node = if node ∈ c.nodes then some (c.weightAt node) else none := by
  split
  · rename_i hmem
    exact weightOf_of_mem hmem
  · rename_i hout
    exact weightOf_eq_none.mpr hout

theorem weightOf_isSome {c : Configuration} {node weight : Nat} (h : c.weightOf node = some weight) :
    node ∈ c.nodes ∧ c.weightAt node = weight := by
  rw [weightOf_eq] at h
  split at h
  · rename_i hmem
    exact ⟨hmem, Option.some.inj h⟩
  · cases h

/-! ### Sums over the members -/

/-- A sum over the members is the survivors' part and the parts of the two identities. -/
theorem sum_split {order : List Member} {old new : Nat} (hne : old ≠ new)
    (hnodup : (order.map Member.node).Nodup) (f : Member → Nat) :
    (order.map f).sum =
      ((order.filter fun member => member.node != old && member.node != new).map f).sum +
        ((order.find? fun member => member.node == old).map f).getD 0 +
        ((order.find? fun member => member.node == new).map f).getD 0 := by
  induction order with
  | nil => rfl
  | cons first rest ih =>
    rw [List.map_cons, List.nodup_cons] at hnodup
    have habsent : ∀ node, first.node = node →
        (rest.find? fun member => member.node == node) = none := by
      rintro node rfl
      refine List.find?_eq_none.mpr fun member hmem heq => hnodup.1 ?_
      exact List.mem_map.mpr ⟨member, hmem, by simpa using heq⟩
    have hrest := ih hnodup.2
    rw [List.map_cons, List.sum_cons, hrest]
    by_cases hold : first.node = old
    · have hnew : first.node ≠ new := fun heq => hne (hold.symm.trans heq)
      simp [hold, hne, habsent old hold]
      omega
    · by_cases hnew : first.node = new
      · simp [hnew, hne.symm, habsent new hnew]
        omega
      · simp [hold, hnew]
        omega

theorem profile_total {c : Configuration} (hnodup : c.nodes.Nodup) {old new : Nat}
    (hne : old ≠ new) : (c.profile old new).total = c.total :=
  (sum_split hne hnodup Member.weight).symm

theorem profile_size {c : Configuration} (hnodup : c.nodes.Nodup) {old new : Nat}
    (hne : old ≠ new) : (c.profile old new).size = c.nodes.length := by
  have hcount := sum_split hne hnodup fun _ => 1
  have hone : ∀ own : Option Member, (own.map fun _ => 1).getD 0 =
      (own.map Member.weight).toList.length := by
    rintro (- | member) <;> rfl
  have hlist : ∀ members : List Member, (members.map fun _ => 1).sum = members.length := by
    intro members
    simp
  rw [hlist, hlist, hone, hone] at hcount
  rw [nodes, List.length_map, hcount]
  simp only [Profile.size, profile, survivors, List.length_map]
  rfl

/-- A joining identity takes its predecessor's place, which is among the survivors'. -/
theorem place_le {c : Configuration} (hnodup : c.nodes.Nodup) {old new : Nat} (hne : old ≠ new)
    (hnew : c.weightOf new = none) : c.place old ≤ (c.profile old new).rest.length := by
  have hsize := profile_size hnodup hne
  have hlen : c.nodes.length = c.order.length := List.length_map _
  simp only [Profile.size, show (c.profile old new).new = none from hnew, Option.toList_none,
    List.length_nil, Nat.add_zero, hlen] at hsize
  rw [place, indexOf]
  by_cases hmem : old ∈ c.nodes
  · obtain ⟨index, hindex⟩ := findIdx?_of_mem hmem
    obtain ⟨member, hmember, -⟩ := findIdx?_node hindex
    have hlt := (List.getElem?_eq_some_iff.mp hmember).1
    have hold : (c.profile old new).old = some (c.weightAt old) := weightOf_of_mem hmem
    rw [hold, Option.toList_some, List.length_singleton] at hsize
    rw [hindex, Option.getD_some]
    omega
  · have hold : (c.profile old new).old = none := weightOf_eq_none.mpr hmem
    rw [hold, Option.toList_none, List.length_nil] at hsize
    rw [findIdx?_of_not_mem hmem, Option.getD_none, len]
    omega

/-! ### What the operations do to the weights -/

theorem weightOf_reweighed {c : Configuration} (hnodup : c.nodes.Nodup) {node : Nat}
    (hmem : node ∈ c.nodes) (weight other : Nat) :
    (c.reweighed node weight).weightOf other =
      if other = node then some weight else c.weightOf other := by
  obtain ⟨index, hindex⟩ := findIdx?_of_mem hmem
  rw [← setWeight_eq hnodup hindex, weightOf_setWeight weight other hindex]

theorem weightOf_rescaled (c : Configuration) (scale : Nat → Nat) (node : Nat) :
    (c.rescaled scale).weightOf node = (c.weightOf node).map scale := by
  simp only [weightOf, rescaled, List.find?_map, Option.map_map]
  rfl

theorem weightOf_joined {c : Configuration} {node position : Nat} (hnew : node ∉ c.nodes)
    (hposition : position ≤ c.nodes.length) (other : Nat) :
    (c.joined node position).weightOf other =
      if other = node then some 0 else c.weightOf other := by
  rw [weightOf_eq, weightOf_eq, weightAt_joined hnew hposition, nodes_joined]
  simp only [List.mem_insertIdx hposition]
  by_cases hother : other = node
  · rw [if_pos (.inl hother), if_pos hother, hother, weightAt_eq_zero hnew]
  · simp only [hother, false_or, if_false]

theorem weightOf_without {c : Configuration} (hnodup : c.nodes.Nodup) {node : Nat}
    (hmem : node ∈ c.nodes) (hzero : c.weightAt node = 0) (other : Nat) :
    (c.without node).weightOf other = if other = node then none else c.weightOf other := by
  rw [weightOf_eq, weightOf_eq, weightAt_without hnodup hmem hzero, nodes_without]
  by_cases hother : other = node
  · simp [hother]
  · simp [hother]

theorem survivors_reweighed (c : Configuration) {old new node : Nat}
    (hnode : node = old ∨ node = new) (weight : Nat) :
    (c.reweighed node weight).survivors old new = c.survivors old new := by
  unfold survivors reweighed
  generalize c.order = order
  induction order with
  | nil => rfl
  | cons first rest ih =>
    rw [List.map_cons, List.filter_cons, List.filter_cons, ih]
    by_cases hfirst : first.node = node
    · rcases hnode with rfl | rfl
      · simp [hfirst]
      · simp [hfirst]
    · rw [if_neg hfirst]

theorem survivors_rescaled (c : Configuration) (scale : Nat → Nat) (old new : Nat) :
    (c.rescaled scale).survivors old new =
      (c.survivors old new).map fun member => { member with weight := scale member.weight } := by
  simp only [survivors, rescaled, List.filter_map]
  rfl

theorem filter_insertIdx {α : Type} {p : α → Bool} {a : α} (ha : p a = false) (list : List α)
    (index : Nat) : (list.insertIdx index a).filter p = list.filter p := by
  induction list generalizing index with
  | nil =>
    cases index with
    | zero => simp [ha]
    | succ index => simp
  | cons first rest ih =>
    cases index with
    | zero => simp [ha]
    | succ index => rw [List.insertIdx_succ_cons, List.filter_cons, List.filter_cons, ih]

theorem survivors_joined (c : Configuration) (old new position : Nat) :
    (c.joined new position).survivors old new = c.survivors old new :=
  filter_insertIdx (by simp) _ _

theorem survivors_without (c : Configuration) (old new : Nat) :
    (c.without old).survivors old new = c.survivors old new := by
  rw [survivors, survivors, without, List.filter_filter]
  refine List.filter_congr fun member _ => ?_
  cases member.node != old <;> simp

/-! ### A move is its operation -/

/-- The configurations a replacement meets, with the place the new identity joins at. -/
structure Ready (c : Configuration) (old new place : Nat) : Prop where
  voting : c.Voting
  room : c.weightOf new = none → place ≤ (c.profile old new).rest.length

section Simulation

variable {c : Configuration} {old new place : Nat}

/-- The two identities weighed anew, and the survivors as they were. -/
theorem profile_eq {d : Configuration} {own own' : Option Nat}
    (hsurvivors : d.survivors old new = c.survivors old new) (hold : d.weightOf old = own)
    (hnew : d.weightOf new = own') :
    d.profile old new = { c.profile old new with old := own, new := own' } := by
  simp only [profile, hsurvivors, hold, hnew]

theorem all_weights (hc : c.Voting) (p : Nat → Prop) :
    (∀ weight ∈ (c.profile old new).weights, p weight) ↔ ∀ member ∈ c.order, p member.weight := by
  simp only [Profile.weights, profile, survivors, List.mem_append, List.mem_map, List.mem_filter,
    Option.mem_toList, weightOf_eq_some hc.nodup]
  constructor
  · rintro h ⟨node, weight⟩ hmem
    by_cases hold : node = old
    · exact h weight (.inl (.inr (hold ▸ hmem)))
    · by_cases hnew : node = new
      · exact h weight (.inr (hnew ▸ hmem))
      · exact h weight (.inl (.inl ⟨_, ⟨hmem, by simp [hold, hnew]⟩, rfl⟩))
  · rintro h weight ((⟨member, ⟨hmem, -⟩, rfl⟩ | hmem) | hmem)
    · exact h member hmem
    · exact h _ hmem
    · exact h _ hmem

theorem profile_rescaled (scale : Nat → Nat) :
    (c.rescaled scale).profile old new = (c.profile old new).scaled scale := by
  simp only [profile, Profile.scaled, survivors_rescaled, weightOf_rescaled, List.map_map]
  rfl

/-- **A move is legal where its operation is**, and leads to the profile of where this leads. -/
theorem move_profile (hc : c.Ready old new place) (hne : old ≠ new) (m : Move) :
    (c.Admits (m.op old new place) →
      (c.profile old new).move m = some ((c.afterOp (m.op old new place)).profile old new)) ∧
    (¬c.Admits (m.op old new place) → (c.profile old new).move m = none) := by
  have hnodup := hc.voting.nodup
  cases m with
  | decrement =>
    have htotal := profile_total hnodup hne
    constructor
    · rintro ⟨hmem, hweight, hone⟩
      have hold : (c.profile old new).old = some (c.weightAt old - 1 + 1) := by
        rw [Nat.sub_add_cancel hweight]
        exact weightOf_of_mem hmem
      rw [Profile.move, hold]
      dsimp only
      rw [if_neg (htotal ▸ hone)]
      refine congrArg some (profile_eq (survivors_reweighed c (.inl rfl) _) ?_ ?_).symm
      · exact (weightOf_reweighed hnodup hmem _ _).trans (if_pos rfl)
      · exact (weightOf_reweighed hnodup hmem _ _).trans (if_neg hne.symm)
    · intro hrefused
      rw [Profile.move]
      split
      · rename_i weight hold
        obtain ⟨hmem, hweight⟩ := weightOf_isSome hold
        refine if_pos ?_
        rw [htotal]
        by_contra hone
        exact hrefused ⟨hmem, by omega, hone⟩
      · rfl
  | increment =>
    constructor
    · rintro ⟨hmem, hlt⟩
      have hnew : (c.profile old new).new = some (c.weightAt new) := weightOf_of_mem hmem
      rw [Profile.move, hnew]
      dsimp only
      rw [if_pos hlt]
      refine congrArg some (profile_eq (survivors_reweighed c (.inr rfl) _) ?_ ?_).symm
      · exact (weightOf_reweighed hnodup hmem _ _).trans (if_neg hne)
      · exact (weightOf_reweighed hnodup hmem _ _).trans (if_pos rfl)
    · intro hrefused
      rw [Profile.move]
      split
      · rename_i weight hnew
        obtain ⟨hmem, rfl⟩ := weightOf_isSome hnew
        exact if_neg fun hlt => hrefused ⟨hmem, hlt⟩
      · rfl
  | join =>
    have hsize := profile_size hnodup hne
    constructor
    · rintro ⟨hout, hroom, hposition⟩
      have hnew : (c.profile old new).new = none := weightOf_eq_none.mpr hout
      rw [Profile.move, hnew]
      dsimp only
      rw [if_pos (hsize ▸ hroom)]
      refine congrArg some (profile_eq (survivors_joined c old new _) ?_ ?_).symm
      · exact (weightOf_joined hout hposition _).trans (if_neg hne)
      · exact (weightOf_joined hout hposition _).trans (if_pos rfl)
    · intro hrefused
      rw [Profile.move]
      split
      · rename_i hnew
        refine if_neg fun hroom => hrefused ⟨weightOf_eq_none.mp hnew, hsize ▸ hroom, ?_⟩
        have hle := hc.room hnew
        rw [← hsize, Profile.size]
        omega
      · rfl
  | leave =>
    constructor
    · rintro ⟨hmem, hzero⟩
      have hold : (c.profile old new).old = some 0 := hzero ▸ weightOf_of_mem hmem
      rw [Profile.move, hold]
      refine congrArg some (profile_eq (survivors_without c old new) ?_ ?_).symm
      · exact (weightOf_without hnodup hmem hzero _).trans (if_pos rfl)
      · exact (weightOf_without hnodup hmem hzero _).trans (if_neg hne.symm)
    · intro hrefused
      rw [Profile.move]
      split
      · rename_i hold
        exact absurd (weightOf_isSome hold) hrefused
      · rfl
  | double =>
    rw [Profile.move]
    constructor
    · intro hall
      rw [if_pos ((all_weights hc.voting fun weight => weight * 2 ≤ maxWeight).mpr hall)]
      exact congrArg some (profile_rescaled _).symm
    · intro hrefused
      exact if_neg fun hall => hrefused
        ((all_weights hc.voting fun weight => weight * 2 ≤ maxWeight).mp hall)
  | halve =>
    rw [Profile.move]
    constructor
    · intro hall
      rw [if_pos ((all_weights hc.voting fun weight => weight % 2 = 0).mpr hall)]
      exact congrArg some (profile_rescaled _).symm
    · intro hrefused
      exact if_neg fun hall => hrefused
        ((all_weights hc.voting fun weight => weight % 2 = 0).mp hall)

theorem Ready.afterOp (hc : c.Ready old new place) (hne : old ≠ new) {m : Move}
    (h : c.Admits (m.op old new place)) : (c.afterOp (m.op old new place)).Ready old new place := by
  refine ⟨hc.voting.afterOp h, fun hnew => ?_⟩
  obtain ⟨hlength, hstays⟩ := Profile.move_keeps ((move_profile hc hne m).1 h)
  rw [hlength]
  exact hc.room (hstays hnew)

theorem Ready.withEra (hc : c.Ready old new place) (era : Nat) :
    ({ c with era := era } : Configuration).Ready old new place :=
  ⟨hc.voting.withEra era, hc.room⟩

/-- **A list of moves folds where its operations fold.** -/
theorem fold_profile (hc : c.Ready old new place) (hne : old ≠ new) (moves : List Move) :
    (∀ d, c.applyAllInEra (moves.map (Move.op old new place)) = .ok d →
      (c.profile old new).fold moves = some (d.profile old new) ∧ d.Ready old new place) ∧
    ∀ q, (c.profile old new).fold moves = some q →
      ∃ d, c.applyAllInEra (moves.map (Move.op old new place)) = .ok d := by
  induction moves generalizing c with
  | nil =>
    refine ⟨fun d h => ?_, fun q _ => ⟨c, rfl⟩⟩
    cases h
    exact ⟨rfl, hc⟩
  | cons m rest ih =>
    have hmove := move_profile hc hne m
    rw [List.map_cons, applyAllInEra, Profile.fold]
    by_cases hadmits : c.Admits (m.op old new place)
    · have hnext := (applyInEra_eq_ok hc.voting.nodup).mpr ⟨hadmits, rfl⟩
      rw [hmove.1 hadmits, hnext, Option.bind_some]
      exact ih (hc.afterOp hne hadmits)
    · rw [hmove.2 hadmits, Option.bind_none]
      refine ⟨fun d h => ?_, fun q h => (by cases h)⟩
      obtain ⟨next, hnext, -⟩ := bind_eq_ok.mp h
      exact absurd ((applyInEra_eq_ok hc.voting.nodup).mp hnext).1 hadmits

/-- The other members weigh what they weighed. -/
theorem weightAt_others (hc : c.Voting) {moves : List Move}
    (hscaling : ∀ m ∈ moves, m.isScaling = false) {d : Configuration}
    (h : c.applyAllInEra (moves.map (Move.op old new place)) = .ok d) {other : Nat}
    (hold : other ≠ old) (hnew : other ≠ new) : d.weightAt other = c.weightAt other := by
  induction moves generalizing c with
  | nil =>
    cases h
    rfl
  | cons m rest ih =>
    obtain ⟨hm, hrest⟩ := List.forall_mem_cons.mp hscaling
    obtain ⟨next, hnext, h⟩ := bind_eq_ok.mp h
    rw [ih (hc.applyInEra hnext) hrest h]
    obtain ⟨hadmits, rfl⟩ := (applyInEra_eq_ok hc.nodup).mp hnext
    cases m with
    | decrement => exact (weightAt_reweighed hc.nodup hadmits.1 _ _).trans (if_neg hold)
    | increment => exact (weightAt_reweighed hc.nodup hadmits.1 _ _).trans (if_neg hnew)
    | join => exact weightAt_joined hadmits.1 hadmits.2.2 other
    | leave => exact weightAt_without hc.nodup hadmits.1 hadmits.2 other
    | double => cases hm
    | halve => cases hm

/-- The mass a batch moves is what the two identities exchange. -/
theorem massMoved_profile (hne : old ≠ new) {d : Configuration}
    (hrest : ∀ other, other ≠ old → other ≠ new → d.weightAt other = c.weightAt other) :
    c.massMoved d = (c.profile old new).moved (d.profile old new) := by
  have hzero : ∀ node, node ∉ ({old, new} : Finset Nat) →
      (c.weightAt node - d.weightAt node) + (d.weightAt node - c.weightAt node) = 0 := by
    intro node hnode
    simp only [Finset.mem_insert, Finset.mem_singleton, not_or] at hnode
    rw [hrest node hnode.1 hnode.2]
    omega
  have hout : ∀ node, node ∉ bothNodes c d →
      (c.weightAt node - d.weightAt node) + (d.weightAt node - c.weightAt node) = 0 := by
    intro node hnode
    rw [bothNodes, List.mem_toFinset, List.mem_append, not_or] at hnode
    rw [weightAt_eq_zero hnode.1, weightAt_eq_zero hnode.2]
  rw [massMoved_eq, Majority.moved,
    Finset.sum_subset Finset.subset_union_left fun node _ => hout node,
    ← Finset.sum_subset Finset.subset_union_right fun node _ => hzero node,
    Finset.sum_pair hne]
  rfl

theorem isSingle_op (m : Move) : (m.op old new place).isSingle = true := by
  cases m <;> rfl

theorem isScaling_op (m : Move) : (m.op old new place).isScaling = m.isScaling := by
  cases m <;> rfl

theorem map_op_eq {moves : List Move} {m : Move} (hm : m.isScaling = true) :
    moves.map (Move.op old new place) = [m.op old new place] ↔ moves = [m] := by
  constructor
  · intro h
    obtain ⟨m', hlist, hop⟩ := List.map_eq_singleton_iff.mp h
    rw [hlist]
    congr 1
    cases m <;> cases m' <;> cases hm <;> first | rfl | cases hop
  · rintro rfl
    rfl

/-- **A batch of moves is judged as the batch of its operations**, while the eras last. -/
theorem batch_profile (hc : c.Ready old new place) (hne : old ≠ new) (moves : List Move)
    (slot : Nat) :
    (∀ d, c.apply (.batch (moves.map (Move.op old new place))) slot = .ok d →
      (c.profile old new).batch moves = some (d.profile old new) ∧ d.Ready old new place ∧
        d.era = c.era + 1 ∧ d.era < u32Bound) ∧
    ∀ q, (c.profile old new).batch moves = some q → c.era + 1 < u32Bound →
      ∃ d, c.apply (.batch (moves.map (Move.op old new place))) slot = .ok d := by
  obtain ⟨hforth, hback⟩ := fold_profile hc hne moves
  have hdouble : moves.map (Move.op old new place) = [.double] ↔ moves = [.double] :=
    map_op_eq (m := .double) rfl
  have hhalve : moves.map (Move.op old new place) = [.halve] ↔ moves = [.halve] :=
    map_op_eq (m := .halve) rfl
  have hunit : ∀ d, c.applyAllInEra (moves.map (Move.op old new place)) = .ok d →
      (c.OneUnit (moves.map (Move.op old new place)) d ↔ moves = [.double] ∨ moves = [.halve] ∨
        ((∀ m ∈ moves, m.isScaling = false) ∧
          (c.profile old new).moved (d.profile old new) ≤ 1)) := by
    intro d hd
    rw [OneUnit, hdouble, hhalve, List.forall_mem_map]
    simp only [isScaling_op]
    refine or_congr_right (or_congr_right (and_congr_right fun hscaling => ?_))
    rw [massMoved_profile hne fun other => weightAt_others hc.voting hscaling hd]
  constructor
  · intro d h
    obtain ⟨hmoves, -, -, hroom, folded, hfolded, hone, rfl⟩ := apply_batch.mp h
    obtain ⟨hfold, hready⟩ := hforth folded hfolded
    rw [Ne, List.map_eq_nil_iff] at hmoves
    exact ⟨Profile.batch_eq_some.mpr ⟨hmoves, hfold, (hunit folded hfolded).mp hone⟩,
      hready.withEra _, rfl, hroom⟩
  · intro q h hroom
    obtain ⟨hmoves, hfold, hone⟩ := Profile.batch_eq_some.mp h
    obtain ⟨folded, hfolded⟩ := hback q hfold
    obtain rfl := Option.some.inj ((hforth folded hfolded).1.symm.trans hfold)
    refine ⟨_, apply_batch.mpr ⟨?_, ?_, hc.voting.order_ne, hroom, folded, hfolded,
      (hunit folded hfolded).mpr hone, rfl⟩⟩
    · rwa [Ne, List.map_eq_nil_iff]
    · exact List.forall_mem_map.mpr fun m _ => isSingle_op m

/-! ### The planner is the greedy partition -/

/-- The planner and the partition it makes of the moves, side by side. -/
structure Fills (c : Configuration) (old new place : Nat) (s : Batching) (f : Profile.Filling) :
    Prop where
  steps : s.steps.map EraStep.ops = f.closed.map (List.map (Move.op old new place))
  taken : s.taken = f.taken.map (Move.op old new place)
  start : s.batchStart.profile old new = f.start
  startReady : s.batchStart.Ready old new place
  startEra : s.batchStart.era = c.era + f.closed.length
  here : s.config.profile old new = f.here
  hereReady : s.config.Ready old new place
  hereEra : s.config.era = c.era + f.batches.length
  room : f.taken ≠ [] → s.config.era < u32Bound

theorem Fills.taken_ne {s : Batching} {f : Profile.Filling} (h : Fills c old new place s f) :
    s.taken ≠ [] ↔ f.taken ≠ [] := by
  rw [h.taken, Ne, List.map_eq_nil_iff]

theorem Fills.extended {s : Batching} {f : Profile.Filling} (h : Fills c old new place s f)
    (m : Move) : s.taken ++ [m.op old new place] = (f.taken ++ [m]).map (Move.op old new place) := by
  rw [h.taken, List.map_append, List.map_singleton]

/-- **One operation taken**, on either side. -/
theorem Fills.take {s : Batching} {f : Profile.Filling} (h : Fills c old new place s f)
    (hne : old ≠ new) (m : Move) :
    (∀ s', takeOp s (m.op old new place) = .ok s' →
      ∃ f', f.take m = some f' ∧ Fills c old new place s' f' ∧ f'.taken ≠ []) ∧
    ∀ f', f.take m = some f' → c.era + f'.batches.length < u32Bound →
      ∃ s', takeOp s (m.op old new place) = .ok s' := by
  have hgrown : f.taken ++ [m] ≠ [] := List.append_ne_nil_of_right_ne_nil _ (List.cons_ne_nil _ _)
  obtain ⟨hextend, hextend'⟩ := batch_profile h.startReady hne (f.taken ++ [m]) Slot.none
  obtain ⟨hfresh, hfresh'⟩ := batch_profile h.hereReady hne [m] Slot.none
  rw [h.start] at hextend hextend'
  rw [h.here] at hfresh hfresh'
  constructor
  · intro s' hs'
    rcases (takeOp_eq_ok (isSingle_op m)).mp hs' with
      ⟨next, hnext, rfl⟩ | ⟨hrefused, htaken, next, hnext, rfl⟩
    · rw [h.extended] at hnext
      obtain ⟨hbatch, hready, hera, hroom⟩ := hextend next hnext
      refine ⟨_, Profile.Filling.take_eq_some.mpr (.inl ⟨_, hbatch, rfl⟩),
        ⟨h.steps, h.extended m, h.start, h.startReady, h.startEra, rfl, hready, ?_,
          fun _ => hroom⟩, hgrown⟩
      rw [Profile.Filling.length_batches hgrown, ← Nat.add_assoc, ← h.startEra]
      exact hera
    · obtain ⟨hbatch, hready, hera, hroom⟩ := hfresh next hnext
      have htaken' := h.taken_ne.mp htaken
      have hhere := h.hereEra
      rw [Profile.Filling.length_batches htaken'] at hhere
      have hnone : f.start.batch (f.taken ++ [m]) = none := by
        by_contra hsome
        obtain ⟨q, hq⟩ := Option.ne_none_iff_exists'.mp hsome
        have hlast := h.room htaken'
        obtain ⟨d, hd⟩ := hextend' q hq (by rw [h.startEra]; omega)
        rw [← h.extended] at hd
        exact hrefused d hd
      refine ⟨_, Profile.Filling.take_eq_some.mpr (.inr ⟨hnone, htaken', _, hbatch, rfl⟩),
        ⟨?_, rfl, h.here, h.hereReady, ?_, rfl, hready, ?_, fun _ => hroom⟩, List.cons_ne_nil _ _⟩
      · rw [List.map_append, List.map_append, h.steps, List.map_singleton, List.map_singleton,
          h.taken]
      · rw [hhere, List.length_append, List.length_singleton]
      · rw [Profile.Filling.length_batches (List.cons_ne_nil _ _), hera, hhere, List.length_append,
          List.length_singleton]
        omega
  · intro f' hf' hroom
    rcases Profile.Filling.take_eq_some.mp hf' with
      ⟨q, hq, rfl⟩ | ⟨hnone, htaken, q, hq, rfl⟩
    · rw [Profile.Filling.length_batches hgrown] at hroom
      obtain ⟨next, hnext⟩ := hextend' q hq (by rw [h.startEra]; exact hroom)
      rw [← h.extended] at hnext
      exact ⟨_, (takeOp_eq_ok (isSingle_op m)).mpr (.inl ⟨next, hnext, rfl⟩)⟩
    · have hhere := h.hereEra
      rw [Profile.Filling.length_batches htaken] at hhere
      rw [Profile.Filling.length_batches (List.cons_ne_nil _ _), List.length_append,
        List.length_singleton] at hroom
      obtain ⟨next, hnext⟩ := hfresh' q hq (by rw [hhere]; exact hroom)
      refine ⟨_, (takeOp_eq_ok (isSingle_op m)).mpr
        (.inr ⟨fun d hd => ?_, h.taken_ne.mpr htaken, next, hnext, rfl⟩)⟩
      rw [h.extended] at hd
      rw [(hextend d hd).1] at hnone
      cases hnone

/-- **A list of operations taken**, on either side. -/
theorem Fills.run {s : Batching} {f : Profile.Filling} (h : Fills c old new place s f)
    (hne : old ≠ new) (moves : List Move) :
    (∀ s', (moves.map (Move.op old new place)).foldlM takeOp s = .ok s' →
      ∃ f', moves.foldlM Profile.Filling.take f = some f' ∧ Fills c old new place s' f' ∧
        (f.taken ≠ [] ∨ moves ≠ [] → f'.taken ≠ [])) ∧
    ∀ f', moves.foldlM Profile.Filling.take f = some f' →
      c.era + f'.batches.length < u32Bound →
      ∃ s', (moves.map (Move.op old new place)).foldlM takeOp s = .ok s' := by
  induction moves generalizing s f with
  | nil =>
    refine ⟨fun s' hs' => ?_, fun f' _ _ => ⟨s, rfl⟩⟩
    obtain rfl := pure_eq_ok.mp hs'
    exact ⟨f, rfl, h, fun hne => hne.resolve_right (fun hnil => hnil rfl)⟩
  | cons m rest ih =>
    obtain ⟨hforth, hback⟩ := h.take hne m
    constructor
    · intro s' hs'
      obtain ⟨middle, hmiddle, hs'⟩ := bind_eq_ok.mp hs'
      obtain ⟨g, hg, hfills, htaken⟩ := hforth middle hmiddle
      obtain ⟨f', hf', hfills', htaken'⟩ := (ih hfills).1 s' hs'
      exact ⟨f', Option.bind_eq_some_iff.mpr ⟨g, hg, hf'⟩, hfills', fun _ => htaken' (.inl htaken)⟩
    · intro f' hf' hroom
      obtain ⟨g, hg, hf'⟩ := Option.bind_eq_some_iff.mp hf'
      have hle := Profile.Filling.length_run hf'
      obtain ⟨middle, hmiddle⟩ := hback g hg (by omega)
      obtain ⟨g', hg', hfills, -⟩ := hforth middle hmiddle
      obtain rfl := Option.some.inj (hg.symm.trans hg')
      obtain ⟨s', hs'⟩ := (ih hfills).2 f' hf' hroom
      exact ⟨s', bind_eq_ok.mpr ⟨middle, hmiddle, hs'⟩⟩

theorem Fills.close {s : Batching} {f : Profile.Filling} (h : Fills c old new place s f) :
    s.close.map EraStep.ops = f.batches.map (List.map (Move.op old new place)) := by
  have htaken := h.taken_ne
  rw [Batching.close, Profile.Filling.batches]
  by_cases hnil : f.taken = []
  · rw [if_pos hnil, if_pos (by rw [h.taken, hnil]; rfl), h.steps]
  · rw [if_neg hnil, if_neg (by simpa using htaken.mpr hnil), List.map_append, List.map_append,
      h.steps, List.map_singleton, List.map_singleton, h.taken]

/-- **The planner makes the greedy partition**, or runs out of eras. -/
theorem plan_profile (hc : c.Ready old new place) (hne : old ≠ new) {moves : List Move}
    (hmoves : moves ≠ []) :
    (∀ steps, c.plan (moves.map (Move.op old new place)) = .ok steps →
      ∃ batches, (c.profile old new).greedy moves = some batches ∧
        steps.map EraStep.ops = batches.map (List.map (Move.op old new place)) ∧
        batches.length ≤ c.erasLeft) ∧
    ∀ batches, (c.profile old new).greedy moves = some batches → batches ≠ [] →
      batches.length ≤ c.erasLeft →
      ∃ steps, c.plan (moves.map (Move.op old new place)) = .ok steps := by
  have hfills : Fills c old new place c.opening
      { closed := [], start := c.profile old new, taken := [], here := c.profile old new } :=
    ⟨rfl, rfl, rfl, hc, rfl, rfl, hc, rfl, fun h => absurd rfl h⟩
  obtain ⟨hforth, hback⟩ := hfills.run hne moves
  constructor
  · intro steps h
    obtain ⟨s, hs, rfl⟩ := plan_eq_ok.mp h
    obtain ⟨f, hf, hend, htaken⟩ := hforth s hs
    have hroom := hend.room (htaken (.inr hmoves))
    rw [hend.hereEra] at hroom
    refine ⟨f.batches, ?_, hend.close, by rw [erasLeft]; omega⟩
    rw [Profile.greedy, hf]
    rfl
  · intro batches h hbatches hroom
    obtain ⟨f, hf, rfl⟩ := Option.map_eq_some_iff.mp h
    have hpos := List.length_pos_of_ne_nil hbatches
    rw [erasLeft] at hroom
    obtain ⟨s, hs⟩ := hback f hf (by omega)
    exact ⟨_, plan_eq_ok.mpr ⟨s, hs, rfl⟩⟩

/-! ### The forced steps are the schedule -/

/-- The operations of a schedule, a batch each. -/
def scheduled (old new place : Nat) (batches : List (List Move)) : List SystemOperation :=
  batches.map fun moves => .batch (moves.map (Move.op old new place))

theorem fiveNodeWeightedSteps_eq (c : Configuration) (old new : Nat) :
    fiveNodeWeightedSteps c old new = (c.profile old new).fiveMoves.bind fun moves =>
      (c.plan (moves.map (Move.op old new (c.place old)))).toOption.map fun steps =>
        steps.map fun step => .batch step.ops := by
  rw [fiveNodeWeightedSteps, Profile.fiveMoves]
  simp only [profile, survivors, List.length_map, List.all_map, Function.comp_def]
  split
  · rfl
  · split
    · rfl
    · rw [Option.bind_some]
      -- whether the weights are doubled, and the weights of the two identities, settle the lists
      generalize ((List.filter _ c.order).all _ && _ && _) = doubling
      obtain ⟨own, hold⟩ : ∃ own, c.weightOf old = own := ⟨_, rfl⟩
      obtain ⟨own', hnew⟩ : ∃ own', c.weightOf new = own' := ⟨_, rfl⟩
      simp only [hold, hnew]
      cases doubling <;> rcases own with - | weight <;> rcases own' with - | - | - | weight' <;>
        simp [Move.op, place]
      all_goals
        split
        · rename_i hplan
          rw [hplan]
          rfl
        · rename_i hplan
          rw [hplan]
          rfl

/-- The weighted replacement is taken where it applies and its eras last. -/
theorem fiveNodeWeightedSteps_scheduled (hc : c.Ready old new (c.place old)) (hne : old ≠ new)
    (hproper : (c.profile old new).Proper) :
    fiveNodeWeightedSteps c old new =
      match (c.profile old new).fiveBatches with
      | some batches =>
        if batches.length ≤ c.erasLeft then some (scheduled old new (c.place old) batches) else none
      | none => none := by
  rw [fiveNodeWeightedSteps_eq, Profile.fiveBatches]
  cases hmoves : (c.profile old new).fiveMoves with
  | none => rfl
  | some moves =>
    rw [Option.bind_some, Option.bind_some]
    obtain ⟨hforth, hback⟩ := plan_profile hc hne (Profile.fiveMoves_ne hmoves)
    have hshort : ∀ steps, c.plan (moves.map (Move.op old new (c.place old))) = .ok steps →
        ∃ batches, (c.profile old new).greedy moves = some batches ∧
          batches.length ≤ c.erasLeft ∧
          (steps.map fun step => SystemOperation.batch step.ops) =
            scheduled old new (c.place old) batches := by
      intro steps hsteps
      obtain ⟨batches, hbatches, hops, hfits⟩ := hforth steps hsteps
      refine ⟨batches, hbatches, hfits, ?_⟩
      have hbatched := congrArg (List.map SystemOperation.batch) hops
      rwa [List.map_map, List.map_map] at hbatched
    cases hplan : c.plan (moves.map (Move.op old new (c.place old))) with
    | ok steps =>
      obtain ⟨batches, hbatches, hfits, hops⟩ := hshort steps hplan
      rw [hbatches]
      dsimp only
      rw [if_pos hfits, ← hops]
      rfl
    | error error =>
      cases hbatches : (c.profile old new).greedy moves with
      | none => rfl
      | some batches =>
        refine (if_neg fun hfits => ?_).symm
        have hfive : (c.profile old new).fiveBatches = some batches := by
          rw [Profile.fiveBatches, hmoves, Option.bind_some, hbatches]
        have hbatches' := (Profile.five_step _ (Profile.mem_fiveProfiles hproper hfive) _ hfive).1
        obtain ⟨steps, hsteps⟩ := hback batches hbatches hbatches' hfits
        rw [hplan] at hsteps
        cases hsteps

theorem forcedSteps_of_none (hne : old ≠ new) (h : fiveNodeWeightedSteps c old new = none) :
    forcedSteps c old new =
      scheduled old new (c.place old) (c.profile old new).generalBatches := by
  rw [forcedSteps, if_neg hne, h, Profile.generalBatches]
  dsimp only
  obtain ⟨own, hold⟩ : ∃ own, c.weightOf old = own := ⟨_, rfl⟩
  obtain ⟨own', hnew⟩ : ∃ own', c.weightOf new = own' := ⟨_, rfl⟩
  simp only [profile, hold, hnew]
  cases own with
  | none =>
    have hplace : c.place old = c.len := by
      rw [place, indexOf, findIdx?_of_not_mem (weightOf_eq_none.mp hold)]
      rfl
    rcases own' with - | - | weight' <;> simp [scheduled, Move.op, hplace]
  | some weight =>
    rcases weight with - | weight <;> rcases own' with - | - | weight' <;>
      simp [scheduled, Move.op, place]

/-- **The forced steps are the schedule of the profile.** -/
theorem forcedSteps_eq (hc : c.Ready old new (c.place old)) (hne : old ≠ new)
    (hproper : (c.profile old new).Proper) :
    forcedSteps c old new =
      scheduled old new (c.place old) ((c.profile old new).schedule c.erasLeft) := by
  have hfive := fiveNodeWeightedSteps_scheduled hc hne hproper
  rw [Profile.schedule]
  cases hbatches : (c.profile old new).fiveBatches with
  | none =>
    rw [hbatches] at hfive
    exact forcedSteps_of_none hne hfive
  | some batches =>
    rw [hbatches] at hfive
    dsimp only at hfive ⊢
    by_cases hfits : batches.length ≤ c.erasLeft
    · rw [if_pos hfits] at hfive ⊢
      rw [forcedSteps, if_neg hne, hfive]
    · rw [if_neg hfits] at hfive ⊢
      exact forcedSteps_of_none hne hfive

/-! ### Along a schedule -/

/-- The place is a matter of the nodes alone. -/
theorem place_of_nodes {d : Configuration} (h : d.nodes = c.nodes) : d.place old = c.place old := by
  have hindex : ∀ e : Configuration, e.indexOf old = e.nodes.findIdx? (· == old) := by
    intro e
    rw [indexOf, nodes, List.findIdx?_map]
    rfl
  have hlen : ∀ e : Configuration, e.len = e.nodes.length := fun e => (List.length_map _).symm
  rw [place, place, hindex, hindex, hlen, hlen, h]

theorem applyAllInEra_nodes_same (hc : c.Voting) {m : Move} (hm : m = .decrement ∨ m = .double)
    {d : Configuration} (h : c.applyAllInEra [m.op old new place] = .ok d) : d.nodes = c.nodes := by
  obtain ⟨-, rfl⟩ := (applyInEra_eq_ok hc.nodup).mp (applyAllInEra_singleton.mp h)
  rcases hm with rfl | rfl
  · exact nodes_reweighed c old _
  · exact nodes_rescaled c _

/-- What joined already has no more use for its place. -/
theorem scheduled_congr {later : List (List Move)} (h : ∀ moves ∈ later, Move.join ∉ moves)
    (place place' : Nat) : scheduled old new place later = scheduled old new place' later := by
  refine List.map_congr_left fun moves hmem => congrArg _ (List.map_congr_left fun m hm => ?_)
  cases m with
  | join => exact absurd hm (h moves hmem)
  | _ => rfl

/-- **A configuration whose forced steps are stable.** -/
structure Steady (c : Configuration) (old new : Nat) : Prop where
  ready : c.Ready old new (c.place old)
  proper : (c.profile old new).Proper
  needed : Profile.erasNeeded (c.weightOf old) (c.weightOf new) ≤ c.erasLeft
  straight : ¬(c.profile old new).Stray c.erasLeft

/-- **One forced step**: it is accepted, and behind it the forced steps are what remained. -/
theorem Steady.step (hc : c.Steady old new) (hne : old ≠ new) {op : SystemOperation}
    {later : List SystemOperation} (h : forcedSteps c old new = op :: later) :
    ∃ d, c.apply op Slot.none = .ok d ∧ d.Steady old new ∧ forcedSteps d old new = later := by
  rw [forcedSteps_eq hc.ready hne hc.proper] at h
  obtain ⟨batch, batches, hschedule, rfl, rfl⟩ := List.map_eq_cons_iff.mp h
  obtain ⟨q, hq, hroom, hagain, hproper, hneeded, hstraight, hjoins⟩ :=
    Profile.schedule_step hc.proper hc.needed hc.straight hschedule
  obtain ⟨hforth, hback⟩ := batch_profile hc.ready hne batch Slot.none
  obtain ⟨d, hd⟩ := hback q hq (by rw [erasLeft] at hroom; omega)
  obtain ⟨hbatch, hready, hera, -⟩ := hforth d hd
  obtain rfl := Option.some.inj (hbatch.symm.trans hq)
  have hleft : d.erasLeft = c.erasLeft - 1 := by
    rw [erasLeft, erasLeft, hera]
    omega
  have hready' : d.Ready old new (d.place old) :=
    ⟨hready.voting, place_le hready.voting.nodup hne⟩
  refine ⟨d, hd, ⟨hready', hproper, hleft ▸ hneeded, hleft ▸ hstraight⟩, ?_⟩
  rw [forcedSteps_eq hready' hne hproper, hleft, hagain]
  have hsame : ∀ m, batch = [m] → m = .decrement ∨ m = .double → d.place old = c.place old := by
    rintro m rfl hm
    obtain ⟨-, -, -, -, folded, hfolded, -, rfl⟩ := apply_batch.mp hd
    have hnodes := applyAllInEra_nodes_same hc.ready.voting hm hfolded
    exact place_of_nodes hnodes
  rcases hjoins with hdecrement | hdouble | hjoined
  · rw [hsame _ hdecrement (.inl rfl)]
    rfl
  · rw [hsame _ hdouble (.inr rfl)]
    rfl
  · exact scheduled_congr hjoined _ _

end Simulation

/-- **A stable replacement**: the forced steps fold, they leave the old identity out and the new
one a voter, and computed again behind any number of them they are what remains. -/
def Replaces (c : Configuration) (old new : Nat) : Prop :=
  (∃ final, c.applyEach (forcedSteps c old new) = .ok final ∧ final.weightOf old = none ∧
    ∃ weight, final.weightOf new = some (weight + 1)) ∧
  ∀ k ≤ (forcedSteps c old new).length, ∀ middle,
    c.applyEach ((forcedSteps c old new).take k) = .ok middle →
    forcedSteps middle old new = (forcedSteps c old new).drop k

theorem Steady.replaces {c : Configuration} {old new : Nat} (hc : c.Steady old new)
    (hne : old ≠ new) : c.Replaces old new := by
  rw [Replaces]
  generalize hsteps : forcedSteps c old new = steps
  induction steps generalizing c with
  | nil =>
    have hnil := hsteps
    rw [forcedSteps_eq hc.ready hne hc.proper, scheduled, List.map_eq_nil_iff] at hnil
    obtain ⟨hold, hnew⟩ := Profile.schedule_eq_nil hc.proper hnil
    refine ⟨⟨c, rfl, hold, hnew⟩, fun k hk middle h => ?_⟩
    rw [List.take_nil] at h
    cases h
    rw [hsteps, List.drop_nil]
  | cons op later ih =>
    obtain ⟨d, hd, hsteady, hlater⟩ := hc.step hne hsteps
    obtain ⟨⟨final, hfinal, hvoter⟩, hagain⟩ := ih hsteady hlater
    refine ⟨⟨final, bind_eq_ok.mpr ⟨d, hd, hfinal⟩, hvoter⟩, fun k hk middle h => ?_⟩
    cases k with
    | zero =>
      cases h
      exact hsteps
    | succ k =>
      obtain ⟨d', hd', h⟩ := bind_eq_ok.mp h
      obtain rfl := Except.ok.inj (hd.symm.trans hd')
      exact hagain k (Nat.le_of_succ_le_succ hk) middle h

/-- Each batch takes an era. -/
theorem applyEach_scheduled {c next : Configuration} {old new place : Nat}
    {batches : List (List Move)} (h : c.applyEach (scheduled old new place batches) = .ok next) :
    batches.length ≤ c.erasLeft := by
  induction batches generalizing c with
  | nil => exact Nat.zero_le _
  | cons batch later ih =>
    obtain ⟨d, hd, h⟩ := bind_eq_ok.mp h
    obtain ⟨-, -, -, hroom, folded, -, -, rfl⟩ := apply_batch.mp hd
    have hlater := ih h
    rw [erasLeft] at hlater ⊢
    dsimp only at hlater
    rw [List.length_cons]
    omega

/-- **When the forced steps are a stable replacement.** The eras must last for the general
schedule; and four survivors of weight one must not face an old identity of weight two while the
new one is absent and seven eras are left. -/
theorem replaces_iff {c : Configuration} (hc : c.Live) (hlen : c.order.length < maxMembers)
    {old new : Nat} (hne : old ≠ new) (hvoter : ∃ node, node ≠ old ∧ 0 < c.weightAt node) :
    c.Replaces old new ↔
      Profile.erasNeeded (c.weightOf old) (c.weightOf new) ≤ c.erasLeft ∧
        ¬((c.survivors old new).map Member.weight = [1, 1, 1, 1] ∧ c.weightOf old = some 2 ∧
          c.weightOf new = none ∧ 7 ≤ c.erasLeft) := by
  have hready : c.Ready old new (c.place old) := ⟨hc.voting, place_le hc.nodup hne⟩
  have hbounded : ∀ node, ∀ weight ∈ c.weightOf node, weight ≤ maxWeight := by
    intro node weight hweight
    exact hc.bounded _ ((weightOf_eq_some hc.nodup).mp hweight)
  have hvoting : 0 < ((c.survivors old new).map Member.weight).sum + (c.weightOf new).getD 0 := by
    obtain ⟨node, hold, hweight⟩ := hvoter
    by_cases hnew : node = new
    · exact Nat.add_pos_right _ (hnew ▸ hweight)
    · have hmem : node ∈ c.nodes := by
        by_contra hout
        rw [weightAt_eq_zero hout] at hweight
        exact Nat.lt_irrefl 0 hweight
      have hsurvives : (⟨node, c.weightAt node⟩ : Member) ∈ c.survivors old new :=
        List.mem_filter.mpr ⟨(mem_order_iff hc.nodup).mpr ⟨hmem, rfl⟩, by simp [hold, hnew]⟩
      have hmap : c.weightAt node ∈ (c.survivors old new).map Member.weight :=
        List.mem_map.mpr ⟨_, hsurvives, rfl⟩
      have hle := List.le_sum_of_mem hmap
      exact Nat.add_pos_left (Nat.lt_of_lt_of_le hweight hle) _
  have hsize := profile_size hc.nodup hne
  have hproper : (c.profile old new).Proper :=
    ⟨hvoting, fun _ => by rwa [hsize, nodes, List.length_map], hbounded old, hbounded new⟩
  have hstray : (c.profile old new).Stray c.erasLeft ↔
      (c.survivors old new).map Member.weight = [1, 1, 1, 1] ∧ c.weightOf old = some 2 ∧
        c.weightOf new = none ∧ 7 ≤ c.erasLeft := by
    rw [Profile.Stray, profile, Profile.mk.injEq, and_assoc, and_assoc]
  rw [← hstray]
  constructor
  · rintro ⟨⟨final, hfinal, -⟩, hagain⟩
    rw [forcedSteps_eq hready hne hproper] at hfinal hagain
    have hlength := applyEach_scheduled hfinal
    refine ⟨?_, fun hstrays => ?_⟩
    · by_contra hshort
      exact Nat.not_le.mpr (Profile.schedule_of_short hproper (Nat.lt_of_not_le hshort)) hlength
    · -- behind the first step the computation takes the longer way
      obtain ⟨later, q, hschedule, hq, hproper', hlonger⟩ := hstrays.departs
      obtain ⟨hforth, hback⟩ := batch_profile hready hne [.decrement] Slot.none
      have hleft := hstrays.2
      rw [erasLeft] at hleft
      obtain ⟨d, hd⟩ := hback q hq (by omega)
      obtain ⟨hbatch, hready', hera, -⟩ := hforth d hd
      obtain rfl := Option.some.inj (hbatch.symm.trans hq)
      have hleft' : d.erasLeft = c.erasLeft - 1 := by
        rw [erasLeft, erasLeft, hera]
        omega
      rw [hschedule] at hagain
      have hremains := hagain 1 (Nat.succ_le_succ (Nat.zero_le _)) d
        (bind_eq_ok.mpr ⟨d, hd, rfl⟩)
      rw [forcedSteps_eq ⟨hready'.voting, place_le hready'.voting.nodup hne⟩ hne hproper',
        hleft'] at hremains
      have hlengths := congrArg List.length hremains
      simp only [scheduled, List.map_cons, List.drop_one, List.tail_cons, List.length_map]
        at hlengths
      exact hlonger hlengths
  · rintro ⟨hneeded, hstraight⟩
    exact Steady.replaces ⟨hready, hproper, hneeded, hstraight⟩ hne

theorem replaces_three :
    Replaces { era := 1, order := [⟨1, 1⟩, ⟨2, 1⟩, ⟨3, 1⟩] } 1 9 :=
  (replaces_iff ⟨⟨by decide, by decide⟩, by decide, by decide⟩ (by decide) (by decide)
    ⟨2, by decide, by decide⟩).mpr ⟨by decide, fun h => absurd h.1 (by decide)⟩

/-- Five voters, one of them raised to two: behind the first step of its replacement the schedule
computed again is another one. -/
theorem raised_replacement_strays :
    ¬∀ c : Configuration, c.Reachable → c.order.length < maxMembers → ∀ old new, old ≠ new →
      (∃ node, node ≠ old ∧ node ≠ new ∧ 0 < c.weightAt node) → c.Replaces old new := by
  intro h
  have hreachable : Reachable
      { era := 2, order := [⟨1, 2⟩, ⟨2, 1⟩, ⟨3, 1⟩, ⟨4, 1⟩, ⟨5, 1⟩] } :=
    .apply (.apply .void (show void.apply (.init [1, 2, 3, 4, 5]) initSlot = _ from rfl))
      (show Configuration.apply _ (.increment 1) 3 = _ from rfl)
  have hagain := (h _ hreachable (by decide) 1 9 (by decide) ⟨2, by decide⟩).2 1 (by decide)
    { era := 3, order := [⟨1, 1⟩, ⟨2, 1⟩, ⟨3, 1⟩, ⟨4, 1⟩, ⟨5, 1⟩] } rfl
  exact absurd hagain (by decide)

end Configuration

end UvrrCore
