import UvrrCore.Routes
import Mathlib.Data.Finset.Option
import Mathlib.Data.Fintype.BigOperators

/-!
# How long the eras last

The search is complete while its eras last (`Lasts`). Along a trail most nodes come or go once: a
node with a weight in the target stays once it is in, and one that is not in the target stays out.
Only the learners of the target come and go. So the shapes of a trail are told apart by how many
nodes are settled, by the places of the learners and by the weights, and there are not many of
those: without learners in the target, no trail is longer than `33 * 3 ^ 16`, whatever the nodes.
-/

namespace UvrrCore

namespace Solve

open UvrrCore.Configuration DepthFirst

section Trails

variable {target c d : Configuration}

/-- The members that the target has without weight. They are the ones that can come and go. -/
def learners (target : Configuration) : Finset Nat :=
  (target.nodes.filter fun node => target.weightAt node = 0).toFinset

/-- The members that come at most once, or leave at most once. -/
def steady (target : Configuration) (nodes : List Nat) : List Nat :=
  nodes.filter (· ∉ learners target)

/-- The nodes that have come or left for good. -/
def settled (target : Configuration) (s : Finset Nat) (nodes : List Nat) : Finset Nat :=
  (s \ learners target).filter fun node => 0 < target.weightAt node ↔ node ∈ nodes

theorem mem_learners {node : Nat} :
    node ∈ learners target ↔ node ∈ target.nodes ∧ target.weightAt node = 0 := by
  simp [learners]

/-- A node that comes and goes settles nothing. -/
theorem settled_of_learner {s : Finset Nat} {nodes nodes' : List Nat} {moved : Nat}
    (hmoved : moved ∈ learners target) (hsame : ∀ x, x ≠ moved → (x ∈ nodes' ↔ x ∈ nodes)) :
    settled target s nodes' = settled target s nodes := by
  refine Finset.filter_congr fun x hx => ?_
  rw [hsame x fun heq => (Finset.mem_sdiff.mp hx).2 (heq ▸ hmoved)]

/-- Any other one is settled. -/
theorem settled_lt {s : Finset Nat} {nodes nodes' : List Nat} {moved : Nat}
    (hmoved : moved ∈ s \ learners target) (hsame : ∀ x, x ≠ moved → (x ∈ nodes' ↔ x ∈ nodes))
    (hnow : 0 < target.weightAt moved ↔ moved ∈ nodes')
    (hbefore : ¬(0 < target.weightAt moved ↔ moved ∈ nodes)) :
    (settled target s nodes).card < (settled target s nodes').card := by
  have hsub : settled target s nodes ⊆ settled target s nodes' := fun x hx => by
    obtain ⟨hx, hsettled⟩ := Finset.mem_filter.mp hx
    have hne : x ≠ moved := fun heq => hbefore (heq ▸ hsettled)
    exact Finset.mem_filter.mpr ⟨hx, hsettled.trans (hsame x hne).symm⟩
  exact Finset.card_lt_card ((Finset.ssubset_iff_of_subset hsub).mpr
    ⟨moved, Finset.mem_filter.mpr ⟨hmoved, hnow⟩, fun hin => hbefore (Finset.mem_filter.mp hin).2⟩)

/-- **A move leaves the steady members alone, or settles one more.** -/
theorem Moves.settles (h : Moves target c d) (hc : c.Live)
    (htarget : target.nodes.Nodup) {s : Finset Nat} (hs : ∀ node ∈ c.nodes, node ∈ s)
    (hts : ∀ node ∈ target.nodes, node ∈ s) :
    settled target s d.nodes = settled target s c.nodes ∧
        steady target d.nodes = steady target c.nodes ∨
      (settled target s c.nodes).card < (settled target s d.nodes).card := by
  rcases h.nodes hc htarget with heq | ⟨index, node, hindex, hnew, hle, heq⟩ |
    ⟨node, hmem, hgone, -, heq⟩
  · rw [heq]
    exact .inl ⟨rfl, rfl⟩
  · have htarget : node ∈ target.nodes := List.mem_of_getElem? hindex
    have hin : ∀ x, x ∈ d.nodes ↔ x = node ∨ x ∈ c.nodes := fun x => by
      rw [heq, List.mem_insertIdx hle]
    have hsame : ∀ x, x ≠ node → (x ∈ d.nodes ↔ x ∈ c.nodes) := fun x hne => by
      rw [hin]
      exact or_iff_right hne
    by_cases hzero : target.weightAt node = 0
    · have hlearner := mem_learners.mpr ⟨htarget, hzero⟩
      refine .inl ⟨settled_of_learner hlearner hsame, ?_⟩
      rw [heq]
      exact filter_insertIdx hle (by simp [hlearner])
    · have hout : node ∉ learners target := fun hin => hzero (mem_learners.mp hin).2
      have hpositive := Nat.pos_of_ne_zero hzero
      exact .inr (settled_lt (Finset.mem_sdiff.mpr ⟨hts node htarget, hout⟩) hsame
        (iff_of_true hpositive ((hin node).mpr (.inl rfl))) fun hiff => hnew (hiff.mp hpositive))
  · have hsame : ∀ x, x ≠ node → (x ∈ d.nodes ↔ x ∈ c.nodes) := fun x hne => by
      rw [heq]
      exact List.mem_erase_of_ne hne
    by_cases hin : node ∈ target.nodes
    · have hlearner := mem_learners.mpr ⟨hin, hgone⟩
      refine .inl ⟨settled_of_learner hlearner hsame, ?_⟩
      rw [heq]
      exact filter_erase hc.nodup (by simp [hlearner])
    · have hout : node ∉ learners target := fun h => hin (mem_learners.mp h).1
      have hzero : ¬0 < target.weightAt node := by
        rw [hgone]
        exact Nat.lt_irrefl 0
      have hleft : node ∉ d.nodes := by
        rw [heq]
        exact hc.nodup.not_mem_erase
      exact .inr (settled_lt (Finset.mem_sdiff.mpr ⟨hs node hmem, hout⟩) hsame
        (iff_of_false hzero hleft) fun hiff => hzero (hiff.mpr hmem))

theorem idxOf?_eq_zero {first x : Nat} {rest : List Nat} :
    (first :: rest).idxOf? x = some 0 ↔ first = x := by
  rw [List.idxOf?_cons]
  split
  · simp_all
  · simp_all

/-- The order of some elements and the places of the others make a list. -/
theorem eq_of_places {p : Nat → Bool} {l l' : List Nat} (hnodup : l.Nodup) (hnodup' : l'.Nodup)
    (horder : l.filter p = l'.filter p)
    (hplaces : ∀ x, p x = false → l.idxOf? x = l'.idxOf? x) : l = l' := by
  induction l generalizing l' with
  | nil =>
    cases l' with
    | nil => rfl
    | cons first' rest' =>
      cases hfirst : p first' with
      | true => simp [hfirst] at horder
      | false => exact absurd ((hplaces first' hfirst).trans (idxOf?_eq_zero.mpr rfl)) nofun
  | cons first rest ih =>
    cases l' with
    | nil =>
      cases hfirst : p first with
      | true => simp [hfirst] at horder
      | false => exact absurd ((hplaces first hfirst).symm.trans (idxOf?_eq_zero.mpr rfl)) nofun
    | cons first' rest' =>
      obtain ⟨hnew, hrest⟩ := List.nodup_cons.mp hnodup
      obtain ⟨hnew', hrest'⟩ := List.nodup_cons.mp hnodup'
      have hsame : first = first' := by
        cases hfirst : p first with
        | false =>
          exact (idxOf?_eq_zero.mp ((hplaces first hfirst).symm.trans (idxOf?_eq_zero.mpr rfl))).symm
        | true =>
          cases hfirst' : p first' with
          | false => exact idxOf?_eq_zero.mp ((hplaces first' hfirst').trans (idxOf?_eq_zero.mpr rfl))
          | true =>
            rw [List.filter_cons_of_pos hfirst, List.filter_cons_of_pos hfirst'] at horder
            exact (List.cons.inj horder).1
      subst hsame
      congr 1
      refine ih hrest hrest' ?_ fun x hx => ?_
      · cases hfirst : p first with
        | true => simpa [hfirst] using horder
        | false => simpa [hfirst] using horder
      · by_cases heq : first = x
        · subst heq
          rw [List.idxOf?_eq_none_iff.mpr hnew, List.idxOf?_eq_none_iff.mpr hnew']
        · have hplace := hplaces x hx
          have hne : ¬(first == x) = true := by simpa using heq
          rw [List.idxOf?_cons, List.idxOf?_cons, if_neg hne, if_neg hne] at hplace
          exact Option.map_injective (add_left_injective 1) hplace

/-- The shape of a configuration with the invariant, over these nodes. -/
def ShapeOver (s : Finset Nat) (k : Shape) : Prop :=
  ∃ d : Configuration, d.Live ∧ shape d = k ∧ ∀ node ∈ d.nodes, node ∈ s

/-- The nodes of a shape. -/
def shapeNodes (k : Shape) : List Nat := k.map Prod.fst

theorem shapeNodes_shape (c : Configuration) : shapeNodes (shape c) = c.nodes := by
  rw [shapeNodes, shape, List.map_map]
  rfl

theorem Edge.shapeOver {s : Finset Nat} (htarget : target.nodes.Nodup)
    (hts : ∀ node ∈ target.nodes, node ∈ s) {k k' : Shape} (h : Edge target k k')
    (hk : ShapeOver s k) : ShapeOver s k' ∧
      (settled target s (shapeNodes k') = settled target s (shapeNodes k) ∧
          steady target (shapeNodes k') = steady target (shapeNodes k) ∨
        (settled target s (shapeNodes k)).card < (settled target s (shapeNodes k')).card) := by
  obtain ⟨d, e, hmove, rfl, rfl⟩ := h
  obtain ⟨d', hd', hsame, hsub⟩ := hk
  have horder := shape_inj.mp hsame
  have heq : d = { d' with era := d.era } := by rw [horder]
  have hd : d.Live := heq ▸ hd'.withEra d.era
  have hs : ∀ node ∈ d.nodes, node ∈ s := fun node hnode => hsub node (by rwa [nodes, horder])
  rw [shapeNodes_shape, shapeNodes_shape]
  refine ⟨⟨e, hmove.live hd, rfl, fun node hnode => ?_⟩, hmove.settles hd htarget hs hts⟩
  rcases hmove.nodes hd htarget with heq | ⟨index, other, hindex, -, hle, heq⟩ |
    ⟨other, -, -, -, heq⟩
  · exact hs node (heq ▸ hnode)
  · rw [heq, List.mem_insertIdx hle] at hnode
    rcases hnode with rfl | hnode
    · exact hts node (List.mem_of_getElem? hindex)
    · exact hs node hnode
  · exact hs node (List.mem_of_mem_erase (heq ▸ hnode))

/-- What tells the shapes of a trail apart: how many nodes are settled, where the others stand, and
what stands at each place. -/
def coordinates (target : Configuration) (s : Finset Nat) (m : Nat) (k : Shape) :
    Nat × (learners target → Option Nat) × (Fin m → Nat) :=
  ((settled target s (shapeNodes k)).card, fun node => (shapeNodes k).idxOf? node.val,
    fun i => (k[i.val]?.map Prod.snd).getD 0)

/-- The coordinates there are. -/
def grid (target : Configuration) (s : Finset Nat) (m : Nat) :
    Finset (Nat × (learners target → Option Nat) × (Fin m → Nat)) :=
  Finset.range ((s \ learners target).card + 1) ×ˢ
    (Fintype.piFinset fun _ => Finset.insertNone (Finset.range m)) ×ˢ
      Fintype.piFinset fun _ => Finset.range 3

theorem card_grid (target : Configuration) (s : Finset Nat) (m : Nat) :
    (grid target s m).card =
      ((s \ learners target).card + 1) * ((m + 1) ^ (learners target).card * 3 ^ m) := by
  simp [grid, Fintype.card_piFinset]

theorem ShapeOver.nodes {s : Finset Nat} {k : Shape} (h : ShapeOver s k) :
    (shapeNodes k).Nodup ∧ (∀ node ∈ shapeNodes k, node ∈ s) ∧ k.length ≤ min s.card 16 := by
  obtain ⟨d, hd, rfl, hsub⟩ := h
  have hlength : (shape d).length = d.nodes.length := by
    rw [shape, Configuration.nodes, List.length_map, List.length_map]
  have hcard : d.nodes.length ≤ s.card := by
    rw [← List.toFinset_card_of_nodup hd.nodup]
    exact Finset.card_le_card fun node hnode => hsub node (List.mem_toFinset.mp hnode)
  rw [shapeNodes_shape, hlength]
  exact ⟨hd.nodup, hsub, Nat.le_min.mpr ⟨hcard, hd.capped⟩⟩

theorem coordinates_mem_grid {s : Finset Nat} {k : Shape} (h : ShapeOver s k) :
    coordinates target s (min s.card 16) k ∈ grid target s (min s.card 16) := by
  obtain ⟨-, -, hlength⟩ := h.nodes
  refine Finset.mem_product.mpr ⟨?_, Finset.mem_product.mpr ⟨?_, ?_⟩⟩
  · exact Finset.mem_range.mpr (Nat.lt_succ_of_le (Finset.card_filter_le _ _))
  · refine Fintype.mem_piFinset.mpr fun node => Finset.mem_insertNone.mpr fun place hplace => ?_
    obtain ⟨hlt, -⟩ := List.idxOf?_eq_some_iff.mp hplace
    rw [shapeNodes, List.length_map] at hlt
    exact Finset.mem_range.mpr (Nat.lt_of_lt_of_le hlt hlength)
  · refine Fintype.mem_piFinset.mpr fun i => Finset.mem_range.mpr ?_
    obtain ⟨d, hd, rfl, -⟩ := h
    show ((shape d)[i.val]?.map Prod.snd).getD 0 < 3
    rw [shape, List.getElem?_map, Option.map_map]
    cases hmember : d.order[i.val]? with
    | none => decide
    | some member => exact Nat.lt_succ_of_le (hd.bounded member (List.mem_of_getElem? hmember))

/-- Shapes of one trail with the same coordinates are the same. -/
theorem coordinates_inj {s : Finset Nat} {k k' : Shape} (hk : ShapeOver s k) (hk' : ShapeOver s k')
    (hsteady : (settled target s (shapeNodes k)).card = (settled target s (shapeNodes k')).card →
      steady target (shapeNodes k) = steady target (shapeNodes k'))
    (heq : coordinates target s (min s.card 16) k = coordinates target s (min s.card 16) k') :
    k = k' := by
  obtain ⟨hrank, hrest⟩ := Prod.mk.inj heq
  obtain ⟨hplaces, hweights⟩ := Prod.mk.inj hrest
  obtain ⟨hnodup, -, hlength⟩ := hk.nodes
  obtain ⟨hnodup', -, hlength'⟩ := hk'.nodes
  have hnodes : shapeNodes k = shapeNodes k' := by
    refine eq_of_places hnodup hnodup' (hsteady hrank) fun x hx => ?_
    exact congrFun hplaces ⟨x, by simpa using hx⟩
  refine List.ext_getElem? fun i => ?_
  by_cases hlt : i < min s.card 16
  · have hnode : k[i]?.map Prod.fst = k'[i]?.map Prod.fst := by
      rw [← List.getElem?_map, ← List.getElem?_map]
      exact congrArg (·[i]?) hnodes
    have hweight : (k[i]?.map Prod.snd).getD 0 = (k'[i]?.map Prod.snd).getD 0 :=
      congrFun hweights ⟨i, hlt⟩
    cases hentry : k[i]? with
    | none =>
      rw [hentry] at hnode
      exact (Option.map_eq_none_iff.mp hnode.symm).symm
    | some entry =>
      rw [hentry] at hnode hweight
      obtain ⟨entry', hentry', hfirst⟩ := Option.map_eq_some_iff.mp hnode.symm
      rw [hentry'] at hweight ⊢
      exact congrArg some (Prod.ext hfirst.symm hweight)
  · rw [List.getElem?_eq_none (by omega), List.getElem?_eq_none (by omega)]

/-- **A trail is no longer than its shapes are many.** -/
theorem room_of_grid (hc : c.Live) (htarget : target.nodes.Nodup) {s : Finset Nat}
    (hs : ∀ node ∈ c.nodes, node ∈ s) (hts : ∀ node ∈ target.nodes, node ∈ s)
    (hleft : ((s \ learners target).card + 1) *
      ((min s.card 16 + 1) ^ (learners target).card * 3 ^ min s.card 16) ≤ c.erasLeft) :
    Room c target := by
  refine .inl fun trail htrail _ _ => ?_
  have hstart : ShapeOver s (shape c) := ⟨c, hc, rfl, hs⟩
  have hover : ∀ k ∈ trail, ShapeOver s k :=
    htrail.keeps (fun k k' hedge hk => (hedge.shapeOver htarget hts hk).1) hstart
  have hshared := htrail.part_of_rank (P := ShapeOver s)
    (fun k => steady target (shapeNodes k)) (fun k => (settled target s (shapeNodes k)).card)
    (fun k k' hedge hk => (hedge.shapeOver htarget hts hk).1)
    (fun k k' hedge hk => (hedge.shapeOver htarget hts hk).2.imp_left fun h =>
      ⟨congrArg Finset.card h.1, h.2⟩) hstart
  have hinj : Set.InjOn (coordinates target s (min s.card 16)) trail.toFinset := by
    intro k hk k' hk' heq
    have hk : k ∈ trail := List.mem_toFinset.mp hk
    have hk' : k' ∈ trail := List.mem_toFinset.mp hk'
    exact coordinates_inj (hover k hk) (hover k' hk') (hshared k hk k' hk') heq
  calc trail.length = trail.toFinset.card := (List.toFinset_card_of_nodup htrail.nodup).symm
    _ ≤ (grid target s (min s.card 16)).card :=
      Finset.card_le_card_of_injOn _
        (fun k hk => coordinates_mem_grid (hover k (List.mem_toFinset.mp hk))) hinj
    _ ≤ c.erasLeft := (card_grid target s _).trans_le hleft

/-- **Without learners in the target the eras last**, whatever the nodes, from any era but the last
third of them. -/
theorem room_of_voters (hc : c.Live) (htarget : target.Live)
    (hvoters : ∀ node ∈ target.nodes, 0 < target.weightAt node)
    (hleft : 33 * 3 ^ 16 ≤ c.erasLeft) : Room c target := by
  have hnone : learners target = ∅ := by
    refine Finset.eq_empty_of_forall_notMem fun node hnode => ?_
    obtain ⟨hmem, hzero⟩ := mem_learners.mp hnode
    exact Nat.ne_of_gt (hvoters node hmem) hzero
  refine room_of_grid (s := (c.nodes ++ target.nodes).toFinset) hc htarget.nodup
    (fun node h => by simp [h]) (fun node h => by simp [h]) (Nat.le_trans ?_ hleft)
  have hcard : (c.nodes ++ target.nodes).toFinset.card ≤ 32 := by
    refine (List.toFinset_card_le _).trans ?_
    have hc16 : c.nodes.length ≤ 16 := hc.capped
    have ht16 : target.nodes.length ≤ 16 := htarget.capped
    rw [List.length_append]
    omega
  rw [hnone, Finset.sdiff_empty, Finset.card_empty, Nat.pow_zero, Nat.one_mul]
  exact Nat.mul_le_mul (Nat.succ_le_succ hcard)
    (Nat.pow_le_pow_right (by decide) (Nat.min_le_right _ _))

end Trails

end Solve

end UvrrCore
