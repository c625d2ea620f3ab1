import UvrrCore.Trails

/-!
# What the solver answers

The claim on the solver is in `Answers`: it ends, what it finds folds to the order of the target,
and it finds something wherever operations lead through configurations of two members or more. It
does so from the orders of `Orderly` only, and from all of them as long as the eras suffice (`Room`).

The members that keep a weight are never taken out by a candidate, so they cannot change places;
but with a third node to hold the weight in between they can, and a path is always there.
-/

namespace UvrrCore

namespace Solve

open UvrrCore.Configuration DepthFirst

section Orders

variable {target c d : Configuration}

/-! ### What no candidate undoes -/

/-- Where every move keeps a property of the members, a path that is found ends with it. -/
theorem solve_keeps {P : List Nat → Prop} (hc : c.Live)
    (hstep : ∀ c d : Configuration, c.Live → Moves target c d → P c.nodes → P d.nodes)
    (hP : P c.nodes) {fuel : Nat} {path : List SystemOperation}
    (h : solve fuel c target = some (some path)) : P target.nodes := by
  obtain ⟨last, hleads, hlast⟩ := solve_leads h
  have hkept : last.Live ∧ P last.nodes := by
    refine Leads.keeps (P := fun d : Configuration => d.Live ∧ P d.nodes) ?_ hleads ⟨hc, hP⟩
    rintro d ⟨op, next⟩ hmove ⟨hd, hPd⟩
    obtain ⟨hop, hnext⟩ := mem_moves.mp hmove
    obtain ⟨hne, -, folded, hfolded, rfl⟩ := (apply_candidate hop).mp hnext
    have hmoves : Moves target d folded := ⟨hne, op, hop, hfolded⟩
    exact ⟨(hmoves.live hd).withEra _, hstep d folded hd hmoves hPd⟩
  have hnodes : last.nodes = target.nodes := by rw [nodes, nodes, hlast]
  exact hnodes ▸ hkept.2

/-- Members that keep a weight stay in their order. -/
theorem keeps_of_solve (hc : c.Live) (htarget : target.nodes.Nodup) {fuel : Nat}
    {path : List SystemOperation} (h : solve fuel c target = some (some path)) :
    (kept target c.nodes).Sublist target.nodes :=
  (solve_keeps (P := fun nodes => (kept target c.nodes).Sublist (kept target nodes)) hc
    (fun _ _ hlive hmove hsub => hsub.trans (hmove.kept_sublist hlive htarget))
    (List.Sublist.refl _) h).trans List.filter_sublist

/-- The head of a target of two stays behind all others. -/
theorem leads_of_solve (hc : c.Live) (htarget : target.nodes.Nodup) (htwo : 2 ≤ c.len) {node : Nat}
    (hkept : kept target c.nodes = [node]) {fuel : Nat} {path : List SystemOperation}
    (h : solve fuel c target = some (some path)) :
    ¬(target.len = 2 ∧ target.nodes.head? = some node ∧ c.nodes.getLast? = some node) := by
  rintro ⟨hshort, hhead, hlast⟩
  rw [← length_nodes] at htwo hshort
  have hpositive := (sole_of_kept hkept).weighs
  obtain ⟨first, second, htargetnodes⟩ := List.length_eq_two.mp hshort
  rw [htargetnodes] at hhead htarget
  obtain rfl := Option.some.inj hhead
  have hstays : target.nodes.getLast? = some first ∧ 2 ≤ target.nodes.length := by
    refine solve_keeps (P := fun nodes => nodes.getLast? = some first ∧ 2 ≤ nodes.length) hc
      (fun c d hc hmove hP => ?_) ⟨hlast, htwo⟩ h
    obtain ⟨hlast, htwo⟩ := hP
    rcases hmove.nodes hc (htargetnodes ▸ htarget) with heq | ⟨index, node, hindex, hnew, hle, heq⟩ |
      ⟨node, hmem, hgone, hfloor, heq⟩
    · rw [heq]
      exact ⟨hlast, htwo⟩
    · -- what joins does so in front of the last
      have hone : index = 1 := by
        rw [htargetnodes] at hindex
        have hlt := (List.getElem?_eq_some_iff.mp hindex).1
        rw [List.length_cons, List.length_singleton] at hlt
        have hne : index ≠ 0 := by
          rintro rfl
          exact hnew (Option.some.inj hindex ▸ List.mem_of_getLast? hlast)
        omega
      rw [heq, List.length_insertIdx_of_le_length hle, List.getLast?_eq_getElem?,
        List.length_insertIdx_of_le_length hle, List.getElem?_insertIdx_of_gt (by omega),
        Nat.add_sub_cancel, ← List.getLast?_eq_getElem?]
      exact ⟨hlast, by omega⟩
    · have hne : first ≠ node := fun heq => by
        rw [heq, hgone] at hpositive
        exact Nat.lt_irrefl 0 hpositive
      obtain ⟨before, hbefore⟩ := List.getLast?_eq_some_iff.mp hlast
      rw [← length_nodes] at hfloor
      rw [heq]
      refine ⟨?_, by rw [List.length_erase_of_mem hmem]; omega⟩
      rw [hc.nodup.erase_eq_filter, hbefore, List.filter_append, List.getLast?_append]
      simp [hne]
  rw [htargetnodes] at hstays
  have hsame : second = first := by simpa using hstays.1
  exact (List.nodup_cons.mp htarget).1 (by simp [hsame])

/-- Two members that no node can join in order stay, or the order is lost. -/
theorem opens_of_solve (hc : c.Live) (htarget : target.nodes.Nodup) (htwo : c.len = 2) {fuel : Nat}
    {path : List SystemOperation} (h : solve fuel c target = some (some path)) :
    c.nodes.Sublist target.nodes ∨
      ∃ index other, index ≤ 2 ∧ target.nodes[index]? = some other ∧ other ∉ c.nodes ∧
        (kept target (c.nodes.insertIdx index other)).Sublist target.nodes := by
  by_contra hclosed
  obtain ⟨hapart, hnone⟩ := not_or.mp hclosed
  have hstays : target.nodes = c.nodes ∨ ¬(kept target target.nodes).Sublist target.nodes := by
    refine solve_keeps (P := fun nodes => nodes = c.nodes ∨
      ¬(kept target nodes).Sublist target.nodes) hc (fun d e hd hmove hP => ?_) (.inl rfl) h
    rcases hP with hsame | hlost
    · have hlength : d.len = 2 := by rw [← length_nodes, hsame, length_nodes, htwo]
      rcases hmove.nodes hd htarget with heq | ⟨index, node, hindex, hnew, hle, heq⟩ |
        ⟨node, -, -, hfloor, -⟩
      · exact .inl (heq.trans hsame)
      · rw [length_nodes, hlength] at hle
        rw [hsame] at hnew heq
        exact .inr fun hsub => hnone ⟨index, node, hle, hindex, hnew, heq ▸ hsub⟩
      · omega
    · exact .inr fun hsub => hlost ((hmove.kept_sublist hd htarget).trans hsub)
  rcases hstays with hsame | hlost
  · exact hapart (hsame ▸ List.Sublist.refl _)
  · exact hlost List.filter_sublist

/-- **A path is found from an orderly configuration only.** -/
theorem orderly_of_solve (hc : c.Live) (htarget : target.nodes.Nodup) (htwo : 2 ≤ c.len) {fuel : Nat}
    {path : List SystemOperation} (h : solve fuel c target = some (some path)) :
    Orderly target c where
  keeps := keeps_of_solve hc htarget h
  leads _ hkept := leads_of_solve hc htarget htwo hkept h
  opens _ _ hlength := opens_of_solve hc htarget hlength h

end Orders

/-! ### A path there is -/

/-- Operations accepted in turn, through configurations of at least two members. -/
def Legal : Configuration → List SystemOperation → Configuration → Prop
  | c, [], last => 2 ≤ c.len ∧ c = last
  | c, op :: ops, last =>
    2 ≤ c.len ∧ ∃ slot next, c.apply op slot = .ok next ∧ Legal next ops last

section Paths

variable {target c d : Configuration}

theorem Legal.append {middle : Configuration} {ops later : List SystemOperation}
    (h : Legal c ops middle) (h' : Legal middle later d) : Legal c (ops ++ later) d := by
  induction ops generalizing c with
  | nil =>
    obtain ⟨-, rfl⟩ := h
    exact h'
  | cons op ops ih =>
    obtain ⟨htwo, slot, next, hnext, h⟩ := h
    exact ⟨htwo, slot, next, hnext, ih h⟩

/-- A legal path ends with the invariant it began with. -/
theorem Legal.live {ops : List SystemOperation} (h : Legal c ops d) (hc : c.Lawful) :
    d.Lawful ∧ 2 ≤ d.len := by
  induction ops generalizing c with
  | nil =>
    obtain ⟨htwo, rfl⟩ := h
    exact ⟨hc, htwo⟩
  | cons op ops ih =>
    obtain ⟨-, slot, next, hnext, h⟩ := h
    exact ih h (hc.apply hnext).1

/-- Moves are legal operations, an era each. -/
theorem legal_of_within {n : Nat} (h : Within (Moves target) n c d) (hc : c.Live)
    (htarget : target.nodes.Nodup) (htwo : 2 ≤ c.len) {era : Nat} (hera : era + n < u32Bound) :
    ∃ ops k, k ≤ n ∧ Legal { c with era := era } ops { d with era := era + k } := by
  induction n generalizing c era with
  | zero =>
    cases h
    exact ⟨[], 0, Nat.le_refl 0, htwo, rfl⟩
  | succ n ih =>
    rcases h with rfl | ⟨middle, hmove, h⟩
    · exact ⟨[], 0, Nat.zero_le _, htwo, rfl⟩
    · obtain ⟨ops, k, hk, hlegal⟩ := ih h (hmove.live hc) (hmove.two_le hc htarget htwo)
        (show era + 1 + n < u32Bound by omega)
      obtain ⟨hne, op, hop, hfolded⟩ := hmove
      have hhere : op ∈ candidates { c with era := era } target := hop
      have happly : ({ c with era := era } : Configuration).apply op Slot.none =
          .ok { middle with era := era + 1 } := by
        refine (apply_candidate hhere).mpr ⟨hne, ?_, { middle with era := era }, ?_, rfl⟩
        · show era + 1 < u32Bound
          omega
        · rw [applyInEra_era, hfolded]
          rfl
      refine ⟨op :: ops, k + 1, Nat.succ_le_succ hk, htwo, Slot.none, _, happly, ?_⟩
      rwa [Nat.add_assoc, Nat.add_comm 1 k] at hlegal

/-- A configuration of two nodes, with the weight at the first. -/
def halfway (node other : Nat) : Configuration := { era := 1, order := [⟨node, 1⟩, ⟨other, 0⟩] }

theorem halfway_live {node other : Nat} (hne : node ≠ other) : (halfway node other).Live where
  nodup := by simp [halfway, Configuration.nodes, hne]
  capped := show 2 ≤ 16 by decide
  bounded := by simp [halfway]
  positive := by simp [halfway, total]

/-- A target can follow any configuration that it has no member in common with. -/
theorem finishes_of_disjoint (hc : c.Live) (htarget : target.Live) (htwo : 2 ≤ c.len)
    (hpair : 2 ≤ target.len) (hdisjoint : ∀ node ∈ c.nodes, node ∉ target.nodes) :
    Finishes target 200 c := by
  refine finishes_of_none hc htarget hpair ?_ htwo
  refine List.filter_eq_nil_iff.mpr fun node hnode => ?_
  simp [weightAt_eq_zero (hdisjoint node hnode)]

/-- **Between two configurations of two members or more there is a path**, over two nodes that are
new to both. -/
theorem exists_legal (hc : c.Live) (htarget : target.Live) (htwo : 2 ≤ c.len)
    (hpair : 2 ≤ target.len) (hera : c.era + 400 < u32Bound) :
    ∃ ops last, Legal c ops last ∧ last.order = target.order := by
  obtain ⟨node, hnode⟩ := Infinite.exists_notMem_finset (c.nodes ++ target.nodes).toFinset
  obtain ⟨other, hother⟩ := Infinite.exists_notMem_finset (node :: c.nodes ++ target.nodes).toFinset
  simp only [List.mem_toFinset, List.mem_append, List.mem_cons, not_or] at hnode hother
  obtain ⟨⟨hne, hotherc⟩, hothertarget⟩ := hother
  have hlive := halfway_live (Ne.symm hne)
  obtain ⟨d, hwithin, hd⟩ := finishes_of_disjoint hc hlive htwo (Nat.le_refl 2)
    (fun x hx => by
      have hx1 : x ≠ node := fun heq => hnode.1 (heq ▸ hx)
      have hx2 : x ≠ other := fun heq => hotherc (heq ▸ hx)
      simp [halfway, Configuration.nodes, hx1, hx2])
  obtain ⟨ops, k, hk, hlegal⟩ := legal_of_within hwithin hc hlive.nodup htwo
    (show c.era + 200 < u32Bound by omega)
  have hmiddle : ({ d with era := c.era + k } : Configuration) =
      { halfway node other with era := c.era + k } := by rw [hd]
  rw [hmiddle] at hlegal
  obtain ⟨e, hwithin', he⟩ := finishes_of_disjoint hlive htarget (Nat.le_refl 2) hpair
    (fun x hx => by
      simp only [halfway, Configuration.nodes, List.map_cons, List.map_nil, List.mem_cons,
        List.not_mem_nil, or_false] at hx
      rcases hx with rfl | rfl
      · exact hnode.2
      · exact hothertarget)
  obtain ⟨later, k', -, hlater⟩ := legal_of_within hwithin' hlive htarget.nodup (Nat.le_refl 2)
    (show c.era + k + 200 < u32Bound by omega)
  exact ⟨ops ++ later, _, hlegal.append hlater, he⟩

end Paths

/-! ### The claim -/

/-- Operations lead to the target, through configurations of two members or more. -/
def Leadable (c target : Configuration) : Prop :=
  ∃ ops last, Legal c ops last ∧ last.order = target.order

/-- **What the solver owes** from a start to a target order. -/
structure Answers (c target : Configuration) : Prop where
  ends : ∃ fuel, (solve fuel c target).isSome
  folds : ∀ fuel path, solve fuel c target = some (some path) →
    ∃ last, c.applyEach path = .ok last ∧ last.order = target.order
  finds : Leadable c target → ∃ fuel path, solve fuel c target = some (some path)

section Claim

variable {c target : Configuration}

/-- What operations lead to is a configuration of two members or more, and so is what they lead
from. -/
theorem Leadable.live (h : Leadable c target) (hc : c.Reachable) :
    (c.Live ∧ 2 ≤ c.len) ∧ target.Live ∧ 2 ≤ target.len := by
  obtain ⟨ops, last, hlegal, hlast⟩ := h
  have hlive : ∀ {d : Configuration}, d.Lawful → 2 ≤ d.len → d.Live := fun hd htwo =>
    hd.elim (fun hvoid => by rw [len, hvoid.2] at htwo; cases htwo) And.right
  have htwo : 2 ≤ c.len := by
    cases ops with
    | nil => exact hlegal.1
    | cons op ops => exact hlegal.1
  obtain ⟨hlawful, hpair⟩ := hlegal.live hc.lawful
  have hsame : target = { last with era := target.era } := by rw [hlast]
  exact ⟨⟨hlive hc.lawful htwo, htwo⟩, hsame ▸ (hlive hlawful hpair).withEra target.era,
    by rwa [len, ← hlast]⟩

/-- The search ends, and is sound. -/
theorem answers_of_finds
    (h : Leadable c target → ∃ fuel path, solve fuel c target = some (some path)) :
    Answers c target where
  ends := by
    obtain ⟨result, hresult⟩ := solve_ends c target
    exact ⟨_, by rw [hresult]; rfl⟩
  folds fuel path hfound := by
    obtain ⟨last, hleads, hlast⟩ := solve_leads hfound
    exact ⟨last, applyEach_of_leads hleads, hlast⟩
  finds := h

/-- **The solver answers from the orderly configurations**, and from no others that anything leads
from: it ends and is sound always, and it is complete where the members that keep a weight stand as
in the target, but for the ways `Orderly` leaves out. That it is complete there is as long as the
eras suffice; and where there are some hundred of them, something leads from every configuration of
two members or more to every other. -/
theorem answers_iff (hc : c.Reachable) :
    (Answers c target → Leadable c target → Orderly target c) ∧
    ((Leadable c target → Orderly target c ∧ Room c target) → Answers c target) ∧
    (Leadable c target → 2 ≤ c.len ∧ 2 ≤ target.len ∧ target.Live) ∧
    (c.era + 400 < u32Bound → 2 ≤ c.len → 2 ≤ target.len → target.Live → Leadable c target) := by
  refine ⟨fun hanswers hleads => ?_, fun horderly => answers_of_finds fun hleads => ?_,
    fun hleads => ?_, fun heras htwo hpair htarget => ?_⟩
  · obtain ⟨⟨hlive, htwo⟩, htarget, -⟩ := hleads.live hc
    obtain ⟨fuel, path, hfound⟩ := hanswers.finds hleads
    exact orderly_of_solve hlive htarget.nodup htwo hfound
  · obtain ⟨⟨hlive, htwo⟩, htarget, hpair⟩ := hleads.live hc
    obtain ⟨hordered, hroom⟩ := horderly hleads
    obtain ⟨d, hwithin, hd⟩ := finishes_of_orderly hlive htarget htwo hpair hordered
    obtain ⟨path, hpath⟩ := solve_finds hroom hwithin.reflTransGen hd
    exact ⟨_, path, hpath⟩
  · obtain ⟨⟨-, htwo⟩, htarget, hpair⟩ := hleads.live hc
    exact ⟨htwo, hpair, htarget⟩
  · have hlive : c.Live :=
      hc.lawful.elim (fun hvoid => by rw [len, hvoid.2] at htwo; cases htwo) And.right
    exact exists_legal hlive htarget htwo hpair heras

/-- The pair that the examples start from, in this era. -/
def pair (era : Nat) : Configuration := { era := era, order := [⟨1, 1⟩, ⟨2, 1⟩] }

/-- Its two members can double and halve their weights. -/
theorem pair_later {era : Nat} (hpair : (pair era).Reachable) (n : Nat)
    (h : era + 2 * n < u32Bound) : (pair (era + 2 * n)).Reachable := by
  induction n with
  | zero => exact hpair
  | succ n ih =>
    have hera : era + 2 * n + 2 < u32Bound := h
    have hdouble : (pair (era + 2 * n)).apply .double 0 =
        .ok { era := era + 2 * n + 1, order := [⟨1, 2⟩, ⟨2, 2⟩] } := by
      rw [apply_single rfl]
      exact ⟨rfl, List.cons_ne_nil _ _, show era + 2 * n + 1 < u32Bound by omega, _, rfl, rfl⟩
    have hhalve : ({ era := era + 2 * n + 1, order := [⟨1, 2⟩, ⟨2, 2⟩] } : Configuration).apply
        .halve 0 = .ok (pair (era + 2 * n + 2)) := by
      rw [apply_single rfl]
      exact ⟨rfl, List.cons_ne_nil _ _, hera, _, rfl, rfl⟩
    exact .apply (.apply (ih (by omega)) hdouble) hhalve

theorem pair_one : (pair 1).Reachable :=
  .apply .void (show void.apply (.init [1, 2]) initSlot = _ from rfl)

/-- Three operations lead around as well: both weights raised, then halved. -/
theorem pair_four : (pair 4).Reachable :=
  .apply (.apply (.apply pair_one (show (pair 1).apply (.increment 1) 3 = _ from rfl))
    (show Configuration.apply _ (.increment 2) 4 = _ from rfl))
    (show Configuration.apply _ .halve 5 = _ from rfl)

/-- A target whose first node comes in before the one that stays. -/
def replaced : Configuration := { era := 1, order := [⟨3, 1⟩, ⟨1, 2⟩] }

theorem pair_orderly (era : Nat) : Orderly replaced (pair era) := by
  have hnodes : (pair era).nodes = [1, 2] := rfl
  refine ⟨by rw [hnodes]; decide, ?_, fun _ _ _ => .inr ⟨0, 3, by decide, rfl, ?_, ?_⟩⟩
  · rintro node - ⟨-, hhead, hlast⟩
    cases hhead
    cases hlast
  · rw [hnodes]
    decide
  · rw [hnodes]
    decide

/-- It is answered with the eras ahead, and with six that are left. -/
theorem answers_replacement :
    Answers (pair 1) replaced ∧ Answers (pair 4294967289) replaced := by
  have hroom : Room (pair 1) replaced :=
    room_of_voters ⟨⟨by decide, by decide⟩, by decide, by decide⟩
      ⟨⟨by decide, by decide⟩, by decide, by decide⟩ (by decide) (by decide)
  have hopen : LiesOpen (pair 4294967289) replaced :=
    ⟨_, .first rfl (by decide) (.first rfl (by decide) (.first rfl (by decide)
      (.first rfl (by decide) (.first rfl (by decide) (.wanted rfl)))))⟩
  exact ⟨(answers_iff pair_one).2.1 fun _ => ⟨pair_orderly 1, hroom⟩,
    (answers_iff (pair_later pair_one 2147483644 (by decide))).2.1 fun _ =>
      ⟨pair_orderly 4294967289, .inr hopen⟩⟩

/-- Both weights doubled, and a third node with one. -/
def grown : Configuration := { era := 1, order := [⟨1, 2⟩, ⟨2, 2⟩, ⟨3, 1⟩] }

/-- **In the last eras an order that is kept is not enough**: with three left the search raises the
weights one by one, and comes to the doubled ones too late to go on from there. -/
theorem late_start_missed : (pair 4294967292).Reachable ∧ Orderly grown (pair 4294967292) ∧
    Leadable (pair 4294967292) grown ∧ ¬Answers (pair 4294967292) grown := by
  have hnodes : (pair 4294967292).nodes = [1, 2] := rfl
  have hkept : kept grown (pair 4294967292).nodes = [1, 2] := by
    rw [hnodes]
    decide
  have hleads : Leadable (pair 4294967292) grown :=
    ⟨[.double, .join 3 2, .increment 3], _, ⟨by decide, 0, _, rfl, by decide, 0, _, rfl, by decide,
      0, _, rfl, by decide, rfl⟩, rfl⟩
  refine ⟨pair_later pair_four 2147483644 (by decide), ⟨by rw [hkept]; decide, ?_, ?_⟩, hleads,
    fun hanswers => ?_⟩
  · intro node honly
    rw [hkept] at honly
    cases honly
  · intro node honly
    rw [hkept] at honly
    cases honly
  · obtain ⟨fuel, path, hfound⟩ := hanswers.finds hleads
    have hnone : solve 4 (pair 4294967292) grown = some none := by decide +kernel
    rcases Nat.le_total fuel 4 with hle | hle
    · rw [solve_mono hle hfound] at hnone
      cases hnone
    · rw [solve_mono hle hnone] at hfound
      cases hfound

/-- **Two members cannot change places**, though a third would let them: the search comes back
with nothing. -/
theorem solver_misses_swap : ¬ ∀ c target : Configuration, c.Reachable → Answers c target := by
  intro hall
  have hanswers := hall { era := 1, order := [⟨1, 1⟩, ⟨2, 1⟩] }
    { era := 1, order := [⟨2, 1⟩, ⟨1, 1⟩] }
    (.apply .void (show void.apply (.init [1, 2]) initSlot = _ from rfl))
  have hlegal : Legal { era := 1, order := [⟨1, 1⟩, ⟨2, 1⟩] }
      [.join 3 2, .decrement 1, .leave 1, .join 1 1, .increment 1, .leave 3]
      { era := 7, order := [⟨2, 1⟩, ⟨1, 1⟩] } :=
    ⟨by decide, 0, _, rfl, by decide, 0, _, rfl, by decide, 0, _, rfl, by decide, 0, _, rfl,
      by decide, 0, _, rfl, by decide, 0, _, rfl, by decide, rfl⟩
  obtain ⟨fuel, path, hfound⟩ := hanswers.finds ⟨_, _, hlegal, rfl⟩
  have hnone : solve 20 { era := 1, order := [⟨1, 1⟩, ⟨2, 1⟩] }
      { era := 1, order := [⟨2, 1⟩, ⟨1, 1⟩] } = some none := by decide
  have hboth := solve_mono (Nat.le_max_left 20 fuel) hnone
  rw [solve_mono (Nat.le_max_right 20 fuel) hfound] at hboth
  cases hboth

end Claim

end Solve

end UvrrCore
