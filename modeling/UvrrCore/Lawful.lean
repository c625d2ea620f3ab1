import UvrrCore.Operations

/-!
# What every configuration keeps

A configuration of era one or more lists each node once, at most `maxMembers` of them, with
weights in the domain and some weight in all (`Live`); the configuration of era zero is empty. The
fold checks only part of this at each operation. The rest follows operation by operation: a halving
of even weights leaves some weight, and a departure takes none.

`Snapshot.inflate` is the second way into a configuration. It checks the same invariant except for
the number of members.
-/

namespace UvrrCore

namespace Configuration

/-- **The invariant of a configuration with members.** -/
structure Live (c : Configuration) : Prop extends WellFormed c where
  bounded : ∀ member ∈ c.order, member.weight ≤ maxWeight
  positive : 0 < c.total

/-- The part that needs neither the cap nor the domain of the weights. -/
structure Voting (c : Configuration) : Prop where
  nodup : c.nodes.Nodup
  positive : 0 < c.total

theorem Live.voting {c : Configuration} (h : c.Live) : c.Voting := ⟨h.nodup, h.positive⟩

/-- The invariant of any configuration: era zero is the empty one. -/
def Lawful (c : Configuration) : Prop :=
  (c.era = Era.initial ∧ c.order = []) ∨ (c.era ≠ Era.initial ∧ c.Live)

theorem Voting.order_ne {c : Configuration} (h : c.Voting) : c.order ≠ [] := by
  intro hempty
  have hpos := h.positive
  rw [total, hempty] at hpos
  exact Nat.lt_irrefl 0 hpos

theorem Live.order_ne {c : Configuration} (h : c.Live) : c.order ≠ [] := h.voting.order_ne

/-- The era plays no part. -/
theorem Live.withEra {c : Configuration} (h : c.Live) (era : Nat) :
    ({ c with era := era } : Configuration).Live :=
  ⟨⟨h.nodup, h.capped⟩, h.bounded, h.positive⟩

/-! ### One operation -/

/-- Where the weight of a node and its list entry are the same thing. -/
theorem bounded_iff {c : Configuration} (hnodup : c.nodes.Nodup) :
    (∀ member ∈ c.order, member.weight ≤ maxWeight) ↔ ∀ node, c.weightAt node ≤ maxWeight := by
  constructor
  · intro h node
    by_cases hmem : node ∈ c.nodes
    · exact h _ ((mem_order_iff hnodup).mpr ⟨hmem, rfl⟩)
    · rw [weightAt_eq_zero hmem]
      exact Nat.zero_le _
  · rintro h ⟨node, weight⟩ hmem
    obtain ⟨-, rfl⟩ := (mem_order_iff hnodup).mp hmem
    exact h node

theorem Admits.change {c : Configuration} (hnodup : c.nodes.Nodup) {op : SystemOperation}
    (h : c.Admits op) : Change c (c.afterOp op) op :=
  (applyInEra_change hnodup ((applyInEra_eq_ok hnodup).mpr ⟨h, rfl⟩)).1

theorem afterOp_wellFormed {c : Configuration} (hc : c.WellFormed) {op : SystemOperation}
    (h : c.Admits op) : (c.afterOp op).WellFormed :=
  (h.change hc.nodup).wellFormed hc

/-- No admitted operation lists a node twice or takes the last weight. -/
theorem Voting.afterOp {c : Configuration} (hc : c.Voting) {op : SystemOperation}
    (h : c.Admits op) : (c.afterOp op).Voting := by
  have hnodup := (h.change hc.nodup).nodup hc.nodup
  refine ⟨hnodup, ?_⟩
  cases op with
  | void => exact h.elim
  | init order => exact h.elim
  | batch ops => exact h.elim
  | nominate fromView offset => exact hc.positive
  | increment node =>
    have htotal := total_reweighed hc.nodup h.1 (c.weightAt node + 1)
    show 0 < (c.reweighed node (c.weightAt node + 1)).total
    omega
  | decrement node =>
    obtain ⟨hmem, hweight, hone⟩ := h
    have htotal := total_reweighed hc.nodup hmem (c.weightAt node - 1)
    have hpositive := hc.positive
    show 0 < (c.reweighed node (c.weightAt node - 1)).total
    omega
  | double =>
    obtain ⟨node, hmem, hweight⟩ := (total_pos_iff hc.nodup).mp hc.positive
    refine (total_pos_iff hnodup).mpr ⟨node, (nodes_rescaled c _).symm ▸ hmem, ?_⟩
    show 0 < (c.rescaled (· * 2)).weightAt node
    rw [weightAt_rescaled c rfl]
    omega
  | halve =>
    -- an even weight that is not zero is at least two
    obtain ⟨node, hmem, hweight⟩ := (total_pos_iff hc.nodup).mp hc.positive
    have heven : c.weightAt node % 2 = 0 :=
      h ⟨node, c.weightAt node⟩ ((mem_order_iff hc.nodup).mpr ⟨hmem, rfl⟩)
    refine (total_pos_iff hnodup).mpr ⟨node, (nodes_rescaled c _).symm ▸ hmem, ?_⟩
    show 0 < (c.rescaled (· / 2)).weightAt node
    rw [weightAt_rescaled c rfl]
    omega
  | join node position =>
    obtain ⟨hnew, -, hposition⟩ := h
    obtain ⟨voter, hmem, hweight⟩ := (total_pos_iff hc.nodup).mp hc.positive
    refine (total_pos_iff hnodup).mpr ⟨voter, ?_, ?_⟩
    · show voter ∈ (c.joined node position).nodes
      rw [nodes_joined, List.mem_insertIdx hposition]
      exact .inr hmem
    · show 0 < (c.joined node position).weightAt voter
      rwa [weightAt_joined hnew hposition]
  | leave node =>
    -- the one that leaves weighs nothing, so the weight is with another
    obtain ⟨hmem, hzero⟩ := h
    obtain ⟨voter, hvoter, hweight⟩ := (total_pos_iff hc.nodup).mp hc.positive
    have hne : voter ≠ node := fun heq => by rw [heq, hzero] at hweight; omega
    refine (total_pos_iff hnodup).mpr ⟨voter, ?_, ?_⟩
    · show voter ∈ (c.without node).nodes
      rw [nodes_without]
      exact List.mem_filter.mpr ⟨hvoter, by simpa using hne⟩
    · show 0 < (c.without node).weightAt voter
      rwa [weightAt_without hc.nodup hmem hzero]

theorem Voting.withEra {c : Configuration} (h : c.Voting) (era : Nat) :
    ({ c with era := era } : Configuration).Voting :=
  ⟨h.nodup, h.positive⟩

theorem Voting.applyInEra {c next : Configuration} (hc : c.Voting) {op : SystemOperation}
    (h : c.applyInEra op = .ok next) : next.Voting := by
  obtain ⟨hadmits, rfl⟩ := (applyInEra_eq_ok hc.nodup).mp h
  exact hc.afterOp hadmits

/-- No admitted operation leaves the domain of the weights. -/
theorem afterOp_bounded {c : Configuration} (hc : c.Live) {op : SystemOperation}
    (h : c.Admits op) (node : Nat) : (c.afterOp op).weightAt node ≤ maxWeight := by
  have hold := (bounded_iff hc.nodup).mp hc.bounded node
  cases op with
  | void => exact hold
  | init order => exact hold
  | batch ops => exact hold
  | nominate fromView offset => exact hold
  | increment other =>
    show (c.reweighed other (c.weightAt other + 1)).weightAt node ≤ maxWeight
    rw [weightAt_reweighed hc.nodup h.1]
    split
    · exact h.2
    · exact hold
  | decrement other =>
    show (c.reweighed other (c.weightAt other - 1)).weightAt node ≤ maxWeight
    rw [weightAt_reweighed hc.nodup h.1]
    split
    · rename_i heq
      rw [heq] at hold
      omega
    · exact hold
  | double =>
    show (c.rescaled (· * 2)).weightAt node ≤ maxWeight
    rw [weightAt_rescaled c rfl]
    by_cases hmem : node ∈ c.nodes
    · exact h ⟨node, c.weightAt node⟩ ((mem_order_iff hc.nodup).mpr ⟨hmem, rfl⟩)
    · rw [weightAt_eq_zero hmem]
      exact Nat.zero_le _
  | halve =>
    show (c.rescaled (· / 2)).weightAt node ≤ maxWeight
    rw [weightAt_rescaled c rfl]
    omega
  | join other position =>
    show (c.joined other position).weightAt node ≤ maxWeight
    rwa [weightAt_joined h.1 h.2.2]
  | leave other =>
    show (c.without other).weightAt node ≤ maxWeight
    rwa [weightAt_without hc.nodup h.1 h.2]

/-- **An admitted operation keeps the invariant.** -/
theorem Live.afterOp {c : Configuration} (hc : c.Live) {op : SystemOperation}
    (h : c.Admits op) : (c.afterOp op).Live := by
  have hwell := afterOp_wellFormed hc.toWellFormed h
  exact ⟨hwell, (bounded_iff hwell.nodup).mpr (afterOp_bounded hc h), (hc.voting.afterOp h).positive⟩

theorem Live.applyInEra {c next : Configuration} (hc : c.Live) {op : SystemOperation}
    (h : c.applyInEra op = .ok next) : next.Live := by
  obtain ⟨hadmits, rfl⟩ := (applyInEra_eq_ok hc.nodup).mp h
  exact hc.afterOp hadmits

/-! ### Lists of operations -/

theorem Voting.applyAllInEra {c next : Configuration} (hc : c.Voting)
    {ops : List SystemOperation} (h : c.applyAllInEra ops = .ok next) :
    next.Voting ∧ next.era = c.era := by
  induction ops generalizing c with
  | nil =>
    cases h
    exact ⟨hc, rfl⟩
  | cons op rest ih =>
    rw [Configuration.applyAllInEra] at h
    obtain ⟨middle, hmiddle, h⟩ := bind_eq_ok.mp h
    obtain ⟨hnext, hera⟩ := ih (hc.applyInEra hmiddle) h
    exact ⟨hnext, hera.trans (applyInEra_change hc.nodup hmiddle).2⟩

theorem Live.applyAllInEra {c next : Configuration} (hc : c.Live) {ops : List SystemOperation}
    (h : c.applyAllInEra ops = .ok next) : next.Live := by
  induction ops generalizing c with
  | nil =>
    cases h
    exact hc
  | cons op rest ih =>
    rw [Configuration.applyAllInEra] at h
    obtain ⟨middle, hmiddle, h⟩ := bind_eq_ok.mp h
    exact ih (hc.applyInEra hmiddle) h

theorem Live.foldSlotsGo {c next : Configuration} (hc : c.Live) (hera : c.era ≠ Era.initial)
    {ops : List SystemOperation} {eras eras' : List Nat}
    (h : foldSlots.go eras c ops = .ok (eras', next)) :
    next.Live ∧ next.era ≠ Era.initial := by
  induction ops generalizing c eras with
  | nil =>
    cases h
    exact ⟨hc, hera⟩
  | cons op rest ih =>
    rw [foldSlots.go] at h
    obtain ⟨middle, hmiddle, h⟩ := bind_eq_ok.mp h
    have hlive := hc.applyInEra hmiddle
    have hsame := (applyInEra_change hc.nodup hmiddle).2
    split at h
    · exact ih hlive (hsame ▸ hera) h
    · split at h
      · cases h
      · rename_i era hnext
        obtain ⟨-, rfl⟩ := Era.next_eq_some.mp hnext
        exact ih (hlive.withEra _) (Nat.succ_ne_zero _) h

/-- **The slab's fold keeps the invariant**, from a configuration past its genesis. -/
theorem Live.foldSlots {c next : Configuration} (hc : c.Live) (hera : c.era ≠ Era.initial)
    {ops : List SystemOperation} {eras : List Nat} (h : c.foldSlots ops = .ok (eras, next)) :
    next.Live ∧ next.era ≠ Era.initial :=
  hc.foldSlotsGo hera h

theorem applyAllInEra_append {c next : Configuration} {front back : List SystemOperation} :
    c.applyAllInEra (front ++ back) = .ok next ↔
      ∃ middle, c.applyAllInEra front = .ok middle ∧ middle.applyAllInEra back = .ok next := by
  induction front generalizing c with
  | nil => simp [applyAllInEra]
  | cons op rest ih =>
    simp only [List.cons_append, applyAllInEra, bind_eq_ok, ih]
    constructor
    · rintro ⟨first, hfirst, middle, hmiddle, hback⟩
      exact ⟨middle, ⟨first, hfirst, hmiddle⟩, hback⟩
    · rintro ⟨middle, ⟨first, hfirst, hmiddle⟩, hback⟩
      exact ⟨first, hfirst, middle, hmiddle, hback⟩

/-- Each operation of a list is legal where it stands. -/
def LegalInTurn (c : Configuration) (ops : List SystemOperation) : Prop :=
  ∀ before op after, ops = before ++ op :: after →
    ∃ middle next, c.applyAllInEra before = .ok middle ∧ middle.applyInEra op = .ok next

theorem legalInTurn_of_ok {c next : Configuration} {ops : List SystemOperation}
    (h : c.applyAllInEra ops = .ok next) : c.LegalInTurn ops := by
  rintro before op after rfl
  obtain ⟨middle, hbefore, hafter⟩ := applyAllInEra_append.mp h
  rw [applyAllInEra] at hafter
  obtain ⟨next', hnext, -⟩ := bind_eq_ok.mp hafter
  exact ⟨middle, next', hbefore, hnext⟩

/-! ### Every reachable configuration -/

theorem Established.live {c next : Configuration} {op : SystemOperation}
    (h : Established c next op) (hc : c.Live) : next.Live := by
  cases h with
  | void hempty hnext => exact absurd hempty hc.order_ne
  | init hempty hnodup hcapped hnext => exact absurd hempty hc.order_ne
  | batch hfolded hera hunit hnext => exact hnext ▸ (hc.applyAllInEra hfolded).withEra _
  | single hnominate hfolded hera hnext => exact hnext ▸ (hc.applyInEra hfolded).withEra _

theorem genesis_live {order : List Nat} (hne : order ≠ []) (hnodup : order.Nodup)
    (hcapped : order.length ≤ maxMembers) :
    ({ era := 1, order := order.map fun node => { node := node, weight := 1 } } :
      Configuration).Live := by
  have hnodes : ({ era := 1, order := order.map fun node => { node := node, weight := 1 } } :
      Configuration).nodes = order := by simp [nodes, Function.comp_def]
  refine ⟨⟨by rw [hnodes]; exact hnodup, by rw [hnodes]; exact hcapped⟩, ?_, ?_⟩
  · intro member hmem
    obtain ⟨node, -, rfl⟩ := List.mem_map.mp hmem
    exact Nat.le_succ 1
  · show 0 < ((order.map fun node => ({ node := node, weight := 1 } : Member)).map
      Member.weight).sum
    have hlen : 0 < order.length := List.length_pos_of_ne_nil hne
    simpa [Function.comp_def] using hlen

/-- The founding order of an accepted genesis is not empty. -/
theorem init_ne {c next : Configuration} {order : List Nat} {slot : Nat}
    (h : c.apply (.init order) slot = .ok next) : order ≠ [] := by
  rintro rfl
  rw [apply] at h
  split at h
  · cases h
  · split at h
    · cases h
    · cases h

/-- Before there are members only the genesis operations fold. -/
theorem apply_of_empty {c next : Configuration} {op : SystemOperation} {slot : Nat}
    (hempty : c.order = []) (h : c.apply op slot = .ok next) :
    op = .void ∨ ∃ order, op = .init order := by
  have hnone : c.successorEra = .error .notInitialised := by
    rw [successorEra, hempty]
    rfl
  cases op with
  | void => exact .inl rfl
  | init order => exact .inr ⟨order, rfl⟩
  | nominate fromView offset => cases h
  | batch ops =>
    rw [apply, applyBatch] at h
    split at h
    · cases h
    · obtain ⟨-, -, h⟩ := bind_eq_ok.mp h
      dsimp only at h
      split at h
      · cases h
      · obtain ⟨era, hera, -⟩ := bind_eq_ok.mp h
        rw [hnone] at hera
        cases hera
  | _ =>
    obtain ⟨era, hera, -⟩ := bind_eq_ok.mp h
    rw [hnone] at hera
    cases hera

/-- Behind an empty configuration comes the void one or a founded one. -/
theorem apply_of_void {c next : Configuration} {op : SystemOperation} {slot : Nat}
    (hempty : c.order = []) (h : c.apply op slot = .ok next) :
    next = Configuration.void ∨ (next.era = 1 ∧ next.Live) := by
  rcases apply_of_empty hempty h with rfl | ⟨order, rfl⟩
  · cases apply_established h with
    | void hempty' hnext => exact .inl hnext
    | single hnominate hfolded => cases hfolded
  · cases apply_established h with
    | init hempty' hnodup hcapped hnext =>
      exact .inr ⟨hnext ▸ rfl, hnext ▸ genesis_live (init_ne h) hnodup hcapped⟩
    | single hnominate hfolded => cases hfolded

theorem Lawful.empty_iff {c : Configuration} (h : c.Lawful) : c.order = [] ↔ c.era = Era.initial := by
  rcases h with ⟨hera, hempty⟩ | ⟨hera, hlive⟩
  · exact ⟨fun _ => hera, fun _ => hempty⟩
  · exact ⟨fun hempty => absurd hempty hlive.order_ne, fun heq => absurd heq hera⟩

/-- The accepted operations but the genesis `Void` establish the next era. -/
theorem Lawful.apply {c next : Configuration} {op : SystemOperation} {slot : Nat}
    (hc : c.Lawful) (h : c.apply op slot = .ok next) :
    next.Lawful ∧ (next.era ≠ Era.initial → next.era = c.era + 1) := by
  rcases hc with ⟨hera, hempty⟩ | ⟨hera, hlive⟩
  · rcases apply_of_void hempty h with rfl | ⟨hone, hlive⟩
    · exact ⟨.inl ⟨rfl, rfl⟩, fun hne => absurd rfl hne⟩
    · exact ⟨.inr ⟨by rw [hone]; exact Nat.one_ne_zero, hlive⟩, fun _ => by rw [hone, hera]⟩
  · have hestablished := apply_established h
    have hnext := hestablished.live hlive
    have hsucc : next.era = c.era + 1 := by
      cases hestablished with
      | void hempty => exact absurd hempty hlive.order_ne
      | init hempty => exact absurd hempty hlive.order_ne
      | batch hfolded hera hunit hnext => rw [hnext]; exact (Era.next_eq_some.mp hera).2
      | single hnominate hfolded hera hnext => rw [hnext]; exact (Era.next_eq_some.mp hera).2
    exact ⟨.inr ⟨by rw [hsucc]; exact Nat.succ_ne_zero _, hnext⟩, fun _ => hsucc⟩

theorem Reachable.lawful {c : Configuration} (h : c.Reachable) : c.Lawful := by
  induction h with
  | void => exact .inl ⟨rfl, rfl⟩
  | apply _ hnext ih => exact (ih.apply hnext).1

/-- **The configuration invariant.** It holds of every configuration the fold makes, each accepted
operation establishes the next era, and a batch is legal operation by operation and moves at most
one unit unless it is a scaling alone. -/
theorem fold_keeps_invariant {c : Configuration} (hc : c.Reachable) :
    (c.era ≠ Era.initial → c.Live) ∧
    (∀ op slot next, c.apply op slot = .ok next → next.era ≠ Era.initial →
      next.Live ∧ next.era = c.era + 1) ∧
    (∀ ops eras next, c.order ≠ [] → c.foldSlots ops = .ok (eras, next) →
      next.Live ∧ next.era ≠ Era.initial) ∧
    ∀ ops slot next, c.apply (.batch ops) slot = .ok next →
      c.LegalInTurn ops ∧ (ops = [.double] ∨ ops = [.halve] ∨ c.massMoved next ≤ 1) := by
  have hlawful := hc.lawful
  have hlive : ∀ d : Configuration, d.Lawful → d.era ≠ Era.initial → d.Live :=
    fun d hd hera => hd.elim (fun h => absurd h.1 hera) And.right
  refine ⟨hlive c hlawful, fun op slot next h hera => ?_, fun ops eras next hne h => ?_,
    fun ops slot next h => ?_⟩
  · obtain ⟨hnext, hsucc⟩ := hlawful.apply h
    exact ⟨hlive next hnext hera, hsucc hera⟩
  · have hera : c.era ≠ Era.initial := fun heq => hne (hlawful.empty_iff.mpr heq)
    exact (hlive c hlawful hera).foldSlots hera h
  · cases apply_established h with
    | batch hfolded hera hunit hnext =>
      subst hnext
      exact ⟨legalInTurn_of_ok hfolded, hunit⟩
    | single hnominate hfolded => cases hfolded

theorem fold_keeps_invariant_increment :
    ({ era := 2, order := [⟨1, 2⟩, ⟨2, 1⟩] } : Configuration).Live :=
  ((fold_keeps_invariant
    (.apply .void (show void.apply (.init [1, 2]) initSlot = _ from rfl))).2.1
    (.increment 1) 3 { era := 2, order := [⟨1, 2⟩, ⟨2, 1⟩] } rfl (by decide)).1

/-- A doubling alone in its batch moves a unit for each voter. And a slab folded onto the void
configuration seats a learner with no weight beside it. -/
theorem scaling_batch_moves_two :
    (∃ c next : Configuration, c.Reachable ∧ c.apply (.batch [.double]) 3 = .ok next ∧
      c.massMoved next = 2) ∧
    void.foldSlots [.join 1 0] = .ok ([0], { era := 1, order := [⟨1, 0⟩] }) ∧
    ({ era := 1, order := [⟨1, 0⟩] } : Configuration).total = 0 :=
  ⟨⟨{ era := 1, order := [⟨1, 1⟩, ⟨2, 1⟩] }, { era := 2, order := [⟨1, 2⟩, ⟨2, 2⟩] },
    .apply .void (show void.apply (.init [1, 2]) initSlot = _ from rfl), rfl, by decide⟩, rfl, rfl⟩

end Configuration

/-! ### Snapshots -/

/-- The durable form of a configuration. Anyone can build one. -/
structure Configuration.Snapshot where
  era : Nat
  order : List Member
deriving DecidableEq, Repr

def Configuration.toSnapshot (c : Configuration) : Configuration.Snapshot where
  era := c.era
  order := c.order

namespace Configuration.Snapshot

/-- The configuration a snapshot describes, checked or not. -/
def described (s : Snapshot) : Configuration where
  era := s.era
  order := s.order

/-- **The checked way back.** -/
def inflate (s : Snapshot) : Except ConfigError Configuration :=
  match firstDuplicate [] (s.order.map Member.node) with
  | some node => .error (.duplicateNode node)
  | none =>
    match s.order.find? fun member => decide (maxWeight < member.weight) with
    | some member => .error (.weightCapExceeded member.node maxWeight)
    | none =>
      if s.era = Era.initial then
        if !s.order.isEmpty then .error .snapshotVoidWithMembers else .ok void
      else if s.order.isEmpty then .error (.snapshotEmptyOrder s.era)
      else if (s.order.map Member.weight).sum = 0 then .error (.snapshotZeroTotal s.era)
      else .ok { era := s.era, order := s.order }

theorem firstDuplicate_eq_none {seen order : List Nat} :
    firstDuplicate seen order = none ↔ order.Nodup ∧ ∀ node ∈ order, node ∉ seen := by
  refine ⟨firstDuplicate_none, ?_⟩
  rintro ⟨hnodup, hfresh⟩
  induction order generalizing seen with
  | nil => rfl
  | cons node rest ih =>
    obtain ⟨hnew, hrest⟩ := List.nodup_cons.mp hnodup
    have hnode : node ∉ seen := hfresh node List.mem_cons_self
    rw [firstDuplicate, if_neg (by simpa using hnode)]
    refine ih hrest fun other hmem => ?_
    rw [List.mem_append, List.mem_singleton]
    rintro (hin | rfl)
    · exact hfresh other (List.mem_cons_of_mem _ hmem) hin
    · exact hnew hmem

/-- What `inflate` checks of a snapshot with members. -/
structure Checked (s : Snapshot) : Prop where
  nodup : s.described.nodes.Nodup
  bounded : ∀ member ∈ s.order, member.weight ≤ maxWeight
  positive : 0 < s.described.total

theorem inflate_eq_ok {s : Snapshot} {c : Configuration} :
    s.inflate = .ok c ↔
      ((s.era = Era.initial ∧ s.order = []) ∨ (s.era ≠ Era.initial ∧ s.Checked)) ∧
        c = s.described := by
  have hfind : (s.order.find? fun member => decide (maxWeight < member.weight)) = none ↔
      ∀ member ∈ s.order, member.weight ≤ maxWeight := by
    simp [List.find?_eq_none]
  unfold inflate
  split
  · rename_i node hdup
    refine ⟨fun h => (by cases h), ?_⟩
    rintro ⟨⟨-, hempty⟩ | ⟨-, hchecked⟩, -⟩
    · rw [hempty] at hdup
      cases hdup
    · have hnone : firstDuplicate [] (s.order.map Member.node) = none :=
        firstDuplicate_eq_none.mpr ⟨hchecked.nodup, fun _ _ hmem => nomatch hmem⟩
      rw [hnone] at hdup
      cases hdup
  · rename_i hdup
    have hnodup : s.described.nodes.Nodup := (firstDuplicate_none hdup).1
    split
    · rename_i member hover
      refine ⟨fun h => (by cases h), ?_⟩
      rintro ⟨⟨-, hempty⟩ | ⟨-, hchecked⟩, -⟩
      · rw [hempty] at hover
        cases hover
      · rw [hfind.mpr hchecked.bounded] at hover
        cases hover
    · rename_i hunder
      have hbounded := hfind.mp hunder
      split
      · rename_i hera
        split
        · rename_i hmembers
          refine ⟨fun h => (by cases h), ?_⟩
          rintro ⟨⟨-, hempty⟩ | ⟨hne, -⟩, -⟩
          · simp [hempty] at hmembers
          · exact absurd hera hne
        · rename_i hempty
          have hempty : s.order = [] := by simpa using hempty
          have hvoid : s.described = void := by
            rw [described, hera, hempty]
            rfl
          rw [hvoid]
          exact ⟨fun h => ⟨.inl ⟨hera, hempty⟩, (Except.ok.inj h).symm⟩,
            fun h => congrArg Except.ok h.2.symm⟩
      · rename_i hera
        split
        · rename_i hempty
          refine ⟨fun h => (by cases h), ?_⟩
          rintro ⟨⟨heq, -⟩ | ⟨-, hchecked⟩, -⟩
          · exact absurd heq hera
          · have hpos := hchecked.positive
            rw [total, described, List.isEmpty_iff.mp hempty] at hpos
            exact absurd hpos (Nat.lt_irrefl 0)
        · split
          · rename_i hzero
            refine ⟨fun h => (by cases h), ?_⟩
            rintro ⟨⟨heq, -⟩ | ⟨-, hchecked⟩, -⟩
            · exact absurd heq hera
            · exact absurd hzero (Nat.pos_iff_ne_zero.mp hchecked.positive)
          · rename_i hpositive
            exact ⟨fun h => ⟨.inr ⟨hera, hnodup, hbounded, Nat.pos_of_ne_zero hpositive⟩,
              (Except.ok.inj h).symm⟩, fun h => congrArg Except.ok h.2.symm⟩

/-- The snapshot of a configuration of the fold gives it back. -/
theorem inflate_of_reachable {c : Configuration} (hc : c.Reachable) :
    c.toSnapshot.inflate = .ok c := by
  refine inflate_eq_ok.mpr ⟨?_, rfl⟩
  exact hc.lawful.imp id (And.imp id fun hlive => ⟨hlive.nodup, hlive.bounded, hlive.positive⟩)

/-- **When the checked way back judges like the fold.** It is exact on a snapshot of at most
sixteen members and on one it refuses anyway; and it always gives a configuration of the fold
back. -/
theorem inflate_exact_iff (s : Snapshot) :
    (((∃ c, s.inflate = .ok c) ↔ s.described.Lawful) ↔
      (s.order.length ≤ maxMembers ∨ s.era = Era.initial ∨ ¬s.Checked)) ∧
    ∀ c : Configuration, c.Reachable → c.toSnapshot = s → s.inflate = .ok c := by
  have hlen : s.described.nodes.length = s.order.length := List.length_map _
  have hok : (∃ c, s.inflate = .ok c) ↔
      (s.era = Era.initial ∧ s.order = []) ∨ (s.era ≠ Era.initial ∧ s.Checked) := by
    simp only [inflate_eq_ok]
    exact ⟨fun ⟨_, h, _⟩ => h, fun h => ⟨_, h, rfl⟩⟩
  constructor
  · rw [hok]
    constructor
    · intro hexact
      by_cases hera : s.era = Era.initial
      · exact .inr (.inl hera)
      · by_cases hchecked : s.Checked
        · rcases hexact.mp (.inr ⟨hera, hchecked⟩) with ⟨heq, -⟩ | ⟨-, hlive⟩
          · exact absurd heq hera
          · exact .inl (hlen ▸ hlive.capped)
        · exact .inr (.inr hchecked)
    · intro hcond
      refine or_congr Iff.rfl (and_congr_right fun hera => ⟨fun hchecked => ?_, fun hlive => ?_⟩)
      · have hcapped : s.order.length ≤ maxMembers :=
          (hcond.resolve_right fun h => h.elim hera (absurd hchecked))
        exact ⟨⟨hchecked.nodup, hlen ▸ hcapped⟩, hchecked.bounded, hchecked.positive⟩
      · exact ⟨hlive.nodup, hlive.bounded, hlive.positive⟩
  · rintro c hc rfl
    exact inflate_of_reachable hc

theorem inflate_exact_genesis :
    ({ era := 1, order := [⟨1, 1⟩] } : Configuration).toSnapshot.inflate =
      .ok { era := 1, order := [⟨1, 1⟩] } :=
  (inflate_exact_iff _).2 _ (.apply .void (show void.apply (.init [1]) initSlot = _ from rfl)) rfl

/-- Seventeen voters: one more than the fold ever seats. -/
def overfull : Snapshot where
  era := 1
  order := (List.range 17).map fun node => ⟨node + 1, 1⟩

/-- The check lets the seventeenth member in. -/
theorem overfull_inflates :
    overfull.inflate = .ok overfull.described ∧ ¬overfull.described.Lawful := by
  refine ⟨rfl, ?_⟩
  rintro (⟨hera, -⟩ | ⟨-, hlive⟩)
  · cases hera
  · exact absurd hlive.capped (by decide)

end Configuration.Snapshot

end UvrrCore
