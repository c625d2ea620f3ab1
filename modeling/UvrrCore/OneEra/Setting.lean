import UvrrCore.Replica.Spec
import UvrrCore.Viewstamped.Agreement

/-!
# The first era as a viewstamped setting

Without reconfiguration a cluster stays in the era its genesis order establishes. The quorums are
the majorities of the genesis members, the primaries go round-robin over them, and every log
begins with the two genesis entries and goes on with client operations.
-/

namespace UvrrCore

open Viewstamped (Setting)

/-! ### Majorities meet -/

namespace Configuration

/-- The weight a configuration gives to the members of a list. -/
def massOf (c : Configuration) (nodes : List Nat) : Nat :=
  ((c.order.filter fun member => nodes.contains member.node).map Member.weight).sum

theorem weightOf_le_sum {order : List Member} {node weight : Nat}
    (h : (order.find? fun member => member.node == node).map Member.weight = some weight) :
    weight ≤ ((order.filter fun member => member.node == node).map Member.weight).sum := by
  induction order with
  | nil => cases h
  | cons member order ih =>
    rw [List.find?_cons] at h
    by_cases heq : (member.node == node) = true
    · rw [heq] at h
      cases h
      simp only [List.filter_cons, heq, if_true, List.map_cons, List.sum_cons]
      exact Nat.le_add_right _ _
    · rw [Bool.not_eq_true] at heq
      rw [heq] at h
      simp only [List.filter_cons, heq, Bool.false_eq_true, if_false]
      exact ih h

/-- Disjoint parts of a list of members weigh no more than what contains both. -/
theorem sum_filter_add_le (order : List Member) {p q s : Member → Bool}
    (hp : ∀ m ∈ order, p m = true → s m = true) (hq : ∀ m ∈ order, q m = true → s m = true)
    (hdisjoint : ∀ m ∈ order, p m = true → q m = true → False) :
    ((order.filter p).map Member.weight).sum + ((order.filter q).map Member.weight).sum ≤
      ((order.filter s).map Member.weight).sum := by
  induction order with
  | nil => simp
  | cons member order ih =>
    have hrest := ih (fun m hm => hp m (List.mem_cons_of_mem _ hm))
      (fun m hm => hq m (List.mem_cons_of_mem _ hm))
      (fun m hm => hdisjoint m (List.mem_cons_of_mem _ hm))
    have hp' := hp member List.mem_cons_self
    have hq' := hq member List.mem_cons_self
    have hboth := hdisjoint member List.mem_cons_self
    simp only [List.filter_cons]
    cases hpm : p member <;> cases hqm : q member <;> cases hsm : s member <;>
      simp_all <;> omega

theorem weightOfSet_le_mass {c : Configuration} {nodes : List Nat} {weight : Nat}
    (h : c.weightOfSet nodes = some weight) : weight ≤ c.massOf nodes := by
  induction nodes generalizing weight with
  | nil =>
    cases h
    exact Nat.zero_le _
  | cons node rest ih =>
    rw [weightOfSet] at h
    split at h
    · cases h
    · rename_i hnew
      split at h
      · rename_i own sum hown hsum
        cases h
        have hrest := ih hsum
        have hfirst := weightOf_le_sum hown
        have hadd := sum_filter_add_le c.order
          (p := fun member => member.node == node)
          (q := fun member => rest.contains member.node)
          (s := fun member => (node :: rest).contains member.node)
          (fun m _ hm => by simp_all) (fun m _ hm => by simp_all)
          (fun m _ hm hm' => by simp_all)
        unfold massOf at hrest ⊢
        omega
      · cases h

/-- Two lists that each carry more than half of the weight share a member. -/
theorem majorities_meet {c : Configuration} {xs ys : List Nat} {wx wy : Nat}
    (hx : c.weightOfSet xs = some wx) (hy : c.weightOfSet ys = some wy)
    (hwx : c.total / 2 + 1 ≤ wx) (hwy : c.total / 2 + 1 ≤ wy) : ∃ n, n ∈ xs ∧ n ∈ ys := by
  by_contra hnone
  have hadd := sum_filter_add_le c.order (p := fun m => xs.contains m.node)
    (q := fun m => ys.contains m.node) (s := fun _ => true) (fun _ _ _ => rfl)
    (fun _ _ _ => rfl)
    (fun m _ hm hm' => hnone ⟨m.node, by simpa using hm, by simpa using hm'⟩)
  have hmx := weightOfSet_le_mass hx
  have hmy := weightOfSet_le_mass hy
  have htotal : ((c.order.filter fun _ => true).map Member.weight).sum = c.total := by
    rw [List.filter_true]
    rfl
  unfold massOf at hmx hmy
  omega

/-- All members together are a majority, when no member is listed twice. -/
theorem weightOfSet_members {order : List Nat} (hnodup : order.Nodup) (era : Nat) :
    ({ era := era, order := order.map fun node => { node := node, weight := 1 } } :
      Configuration).weightOfSet order = some order.length := by
  have hweight : ∀ node ∈ order, ({ era := era
                                    order := order.map fun node =>
                                      { node := node, weight := 1 } } :
      Configuration).weightOf node = some 1 := by
    intro node hmem
    unfold weightOf
    rw [List.find?_map, Option.map_map, Option.map_eq_some_iff]
    cases hfind : order.find? ((fun member : Member => member.node == node) ∘
        fun node => ({ node := node, weight := 1 } : Member)) with
    | none =>
      have := List.find?_eq_none.mp hfind node hmem
      simp at this
    | some found => exact ⟨found, rfl, rfl⟩
  generalize hc : ({ era := era
                     order := order.map fun node => { node := node, weight := 1 } } :
      Configuration) = c at hweight
  clear hc
  induction order with
  | nil => rfl
  | cons node rest ih =>
    obtain ⟨hnew, hrest⟩ := List.nodup_cons.mp hnodup
    rw [weightOfSet, if_neg (by simpa using hnew),
      hweight node List.mem_cons_self,
      ih hrest fun other hmem => hweight other (List.mem_cons_of_mem _ hmem)]
    simp [Nat.add_comm]

end Configuration

/-! ### The genesis -/

/-- A genesis order and the era table it folds to. -/
structure Genesis where
  order : List Nat
  table : EraTable
  folds : Replica.genesisTable order = .ok table

namespace Genesis

/-- The ballot every node is provisioned in. -/
def first : Ballot := { era := 1, view := View.initial }

def config (order : List Nat) : Configuration where
  era := 1
  order := order.map fun node => { node := node, weight := 1 }

theorem table_eq (g : Genesis) :
    g.order ≠ [] ∧ g.order.Nodup ∧
      g.table =
        { earlier :=
            [EraTable.genesis.current,
              { era := 0, config := Configuration.void, total := 0, establishedBy := voidSlot
                establishingOperation := .void, pivot := none }]
          current :=
            { era := 1, config := config g.order, total := (config g.order).total
              establishedBy := initSlot, establishingOperation := .init g.order
              pivot := none } } := by
  obtain ⟨order, table, folds⟩ := g
  unfold Replica.genesisTable at folds
  obtain ⟨first, hfirst, folds⟩ := bind_eq_ok.mp folds
  have hvoid : first =
      { earlier := [EraTable.genesis.current]
        current :=
          { era := 0, config := Configuration.void, total := 0, establishedBy := voidSlot
            establishingOperation := .void, pivot := none } } := by
    unfold EraTable.extend at hfirst
    simp only [Configuration.apply] at hfirst
    cases hfirst
    rfl
  subst hvoid
  unfold EraTable.extend at folds
  obtain ⟨applied, happlied, folds⟩ := bind_eq_ok.mp folds
  simp only [Configuration.apply] at happlied
  split at happlied
  · cases happlied
  · split at happlied
    · cases happlied
    · split at happlied
      · cases happlied
      · rename_i hne
        split at happlied
        · cases happlied
        · split at happlied
          · cases happlied
          · rename_i hduplicate
            cases happlied
            cases folds
            exact ⟨by simpa using hne, (Configuration.firstDuplicate_none hduplicate).1, rfl⟩

@[simp] theorem table_era (g : Genesis) : g.table.current.era = 1 := by
  rw [g.table_eq.2.2]

@[simp] theorem table_config (g : Genesis) : g.table.current.config = config g.order := by
  rw [g.table_eq.2.2]

theorem table_record (g : Genesis) : g.table.record 1 = some g.table.current := by
  rw [g.table_eq.2.2]
  rfl

theorem isQuorum_iff (g : Genesis) {role : Role} {nodes : List Nat} :
    weightedMajority.isQuorum role (config g.order) nodes = true ↔
      ∃ weight, (config g.order).weightOfSet nodes = some weight ∧
        (config g.order).total / 2 + 1 ≤ weight :=
  weightedMajority_isQuorum

theorem total_config (order : List Nat) : (config order).total = order.length := by
  unfold Configuration.total config
  rw [List.map_map]
  induction order with
  | nil => rfl
  | cons node rest ih =>
    rw [List.map_cons, List.sum_cons, ih, List.length_cons]
    exact Nat.add_comm 1 rest.length

/-- **The setting of a genesis.** -/
def setting (g : Genesis) : Setting Nat Ballot LogEntry where
  Quorum Q := ∃ nodes, (∀ n ∈ nodes, n ∈ Q) ∧
    weightedMajority.isQuorum .commit (config g.order) nodes = true
  primary ballot := ((config g.order).primary ballot.view).getD 0
  first := first
  genesis := Replica.genesisEntries g.order 1
  admits i entry := entry.slot = i + 1 ∧ (2 ≤ i → entry.payload.isSystem = false)
  genesis_admits := by
    intro i entry h
    match i, h with
    | 0, h => cases h; exact ⟨rfl, fun hle => absurd hle (by decide)⟩
    | 1, h => cases h; exact ⟨rfl, fun hle => absurd hle (by decide)⟩
  quorum_meet := by
    rintro Q Q' ⟨xs, hxs, hx⟩ ⟨ys, hys, hy⟩
    obtain ⟨wx, hwx, hx⟩ := g.isQuorum_iff.mp hx
    obtain ⟨wy, hwy, hy⟩ := g.isQuorum_iff.mp hy
    obtain ⟨n, hnx, hny⟩ := Configuration.majorities_meet hwx hwy hx hy
    exact ⟨n, hxs n hnx, hys n hny⟩
  quorum_univ := by
    obtain ⟨hne, hnodup, -⟩ := g.table_eq
    refine ⟨g.order, fun _ _ => Set.mem_univ _, g.isQuorum_iff.mpr
      ⟨g.order.length, Configuration.weightOfSet_members hnodup 1, ?_⟩⟩
    have hpos := List.length_pos_iff.mpr hne
    rw [total_config]
    omega
  genesis_ne := by simp [Replica.genesisEntries]

/-- A list that the strategy accepts for any role makes a quorum. -/
theorem quorum_of_isQuorum (g : Genesis) {role : Role} {nodes : List Nat} {Q : Set Nat}
    (h : weightedMajority.isQuorum role (config g.order) nodes = true)
    (hmem : ∀ n ∈ nodes, n ∈ Q) : g.setting.Quorum Q :=
  ⟨nodes, hmem, h⟩

theorem primary_eq (g : Genesis) {ballot : Ballot} {node : Nat}
    (h : (config g.order).primary ballot.view = some node) : g.setting.primary ballot = node := by
  show ((config g.order).primary ballot.view).getD 0 = node
  rw [h]
  rfl

end Genesis

end UvrrCore
