import UvrrCore.DepthFirst
import UvrrCore.Planner

/-!
# The search for a path of operations

`Solve.solve` looks for operations between two configurations, depth first over the candidates that
`apply` accepts, and remembers the shapes it has been through. A configuration has one more thing
than its shape, the era, and the search spends one with each operation. That is why it ends; and as
long as the eras suffice (`Room`), it finds what the candidates can reach: where no chain of moves
outlasts them, and down to the last era where a way lies open to the order in which it searches.

A result is `none` while the fuel is too short for the search.
-/

namespace UvrrCore

namespace Solve

open UvrrCore.Configuration

/-! ### The source -/

abbrev Shape := List (Nat × Nat)

/-- The membership shape. The visited set holds shapes, so that an era makes none of them new. -/
def shape (c : Configuration) : Shape := c.order.map fun member => (member.node, member.weight)

/-- The movers towards one member of the target. A node joins at the target's own index; it is in
the target, so the source expects the index. -/
def towards (current target : Configuration) (member : Member) : List SystemOperation :=
  (if current.order.any fun other => other.node == member.node then []
    else [.join member.node ((target.indexOf member.node).getD 0)]) ++
  (if current.weightAt member.node < member.weight then [.increment member.node]
    else if member.weight < current.weightAt member.node then [.decrement member.node]
    else [])

/-- The mover that takes out a member without weight in the target, above the floor of two. -/
def retiring (current target : Configuration) (member : Member) : List SystemOperation :=
  if target.weightAt member.node = 0 ∧ 2 < current.len then
    [if member.weight = 0 then .leave member.node else .decrement member.node]
  else []

/-- The candidate movers, towards the target first. -/
def candidates (current target : Configuration) : List SystemOperation :=
  target.order.flatMap (towards current target) ++
    current.order.flatMap (retiring current target) ++
    (if current.order.all fun member => decide (member.weight < maxWeight) then [.double] else []) ++
    (if current.order.all fun member => member.weight % 2 == 0 then [.halve] else [])

/-- The candidates of one configuration in turn. An operation is pushed on the way back. -/
def tryEach
    (search : Configuration → List Shape → Option (List Shape × Option (List SystemOperation)))
    (current : Configuration) :
    List SystemOperation → List Shape → Option (List Shape × Option (List SystemOperation))
  | [], visited => some (visited, none)
  | op :: ops, visited =>
    match current.apply op Slot.none with
    | .error _ => tryEach search current ops visited
    | .ok next =>
      match search next visited with
      | none => none
      | some (visited, some path) => some (visited, some (path ++ [op]))
      | some (visited, none) => tryEach search current ops visited

/-- The search from one configuration: the visited shapes, and the path if there is one. -/
def go (target : Configuration) :
    Nat → Configuration → List Shape → Option (List Shape × Option (List SystemOperation))
  | 0, _, _ => none
  | fuel + 1, current, visited =>
    if shape current = shape target then some (visited, some [])
    else if shape current ∈ visited then some (visited, none)
    else tryEach (go target fuel) current (candidates current target) (shape current :: visited)

/-- **The path between two configurations**, if the search finds one. -/
def solve (fuel : Nat) (current target : Configuration) : Option (Option (List SystemOperation)) :=
  (go target fuel current []).map fun found => found.2.map List.reverse

example : solve 99 ⟨1, [⟨1, 1⟩, ⟨2, 1⟩]⟩ ⟨1, [⟨1, 1⟩, ⟨2, 1⟩, ⟨3, 0⟩]⟩ = some (some [.join 3 2]) := by
  decide

/-! ### The candidates -/

theorem shape_inj {c d : Configuration} : shape c = shape d ↔ c.order = d.order := by
  refine (List.map_injective_iff.mpr fun member other h => ?_).eq_iff
  obtain ⟨hnode, hweight⟩ := Prod.mk.inj h
  cases member
  cases other
  simp_all

theorem mem_towards {current target : Configuration} {member : Member} {op : SystemOperation} :
    op ∈ towards current target member ↔
      (member.node ∉ current.nodes ∧ op = .join member.node ((target.indexOf member.node).getD 0)) ∨
      (current.weightAt member.node < member.weight ∧ op = .increment member.node) ∨
      (member.weight < current.weightAt member.node ∧ op = .decrement member.node) := by
  have hany : (current.order.any fun other => other.node == member.node) = true ↔
      member.node ∈ current.nodes := by
    simp [nodes]
  rw [towards, List.mem_append]
  refine or_congr ?_ ?_
  · split
    · rename_i hin
      simp [hany.mp hin]
    · rename_i hout
      simp [mt hany.mpr hout]
  · split
    · rename_i hless
      simp [hless, Nat.not_lt.mpr hless.le]
    · rename_i hless
      split
      · rename_i hgreater
        simp [hgreater, Nat.not_lt.mpr hgreater.le]
      · rename_i hgreater
        simp [hless, hgreater]

theorem mem_retiring {current target : Configuration} {member : Member} {op : SystemOperation} :
    op ∈ retiring current target member ↔ target.weightAt member.node = 0 ∧ 2 < current.len ∧
      op = if member.weight = 0 then .leave member.node else .decrement member.node := by
  rw [retiring]
  split
  · rename_i hretires
    simp [hretires]
  · rename_i hstays
    simp only [List.not_mem_nil, false_iff]
    exact fun h => hstays ⟨h.1, h.2.1⟩

theorem mem_candidates {current target : Configuration} {op : SystemOperation} :
    op ∈ candidates current target ↔
      (∃ member ∈ target.order, op ∈ towards current target member) ∨
      (∃ member ∈ current.order, op ∈ retiring current target member) ∨
      ((∀ member ∈ current.order, member.weight < maxWeight) ∧ op = .double) ∨
      ((∀ member ∈ current.order, member.weight % 2 = 0) ∧ op = .halve) := by
  have hif : ∀ (p : Prop) [Decidable p] (other : SystemOperation),
      op ∈ (if p then [other] else []) ↔ p ∧ op = other := by
    intro p _ other
    split <;> simp_all
  simp only [candidates, List.mem_append, List.mem_flatMap, hif, List.all_eq_true,
    decide_eq_true_eq, beq_iff_eq, or_assoc]

theorem isSingle_of_mem {current target : Configuration} {op : SystemOperation}
    (h : op ∈ candidates current target) : op.isSingle = true ∧ op.isNominate = false := by
  rcases mem_candidates.mp h with ⟨member, -, h⟩ | ⟨member, -, h⟩ | ⟨-, rfl⟩ | ⟨-, rfl⟩
  · rcases mem_towards.mp h with ⟨-, rfl⟩ | ⟨-, rfl⟩ | ⟨-, rfl⟩ <;> exact ⟨rfl, rfl⟩
  · obtain ⟨-, -, rfl⟩ := mem_retiring.mp h
    split <;> exact ⟨rfl, rfl⟩
  · exact ⟨rfl, rfl⟩
  · exact ⟨rfl, rfl⟩

/-! ### The era -/

/-- The era plays no part in what an operation does to the members. -/
theorem applyInEra_era (c : Configuration) (op : SystemOperation) (era : Nat) :
    ({ c with era := era } : Configuration).applyInEra op =
      (c.applyInEra op).map fun d => { d with era := era } := by
  cases op with
  | increment node =>
    rw [applyInEra, applyInEra]
    dsimp only
    cases c.order.findIdx? fun member => member.node == node with
    | none => rfl
    | some index =>
      change (if maxWeight ≤ c.weightAt node then _ else _) =
        Except.map _ (if maxWeight ≤ c.weightAt node then _ else _)
      split <;> rfl
  | decrement node =>
    rw [applyInEra, applyInEra]
    dsimp only
    cases c.order.findIdx? fun member => member.node == node with
    | none => rfl
    | some index =>
      change (if c.weightAt node = 0 then _ else if c.total = 1 then _ else _) =
        Except.map _ (if c.weightAt node = 0 then _ else if c.total = 1 then _ else _)
      split
      · rfl
      · split <;> rfl
  | double =>
    rw [applyInEra, applyInEra]
    cases c.order.mapM doubled <;> rfl
  | halve =>
    rw [applyInEra, applyInEra]
    cases c.order.mapM halved <;> rfl
  | join node position =>
    rw [applyInEra, applyInEra, len, len]
    dsimp only
    split
    · rfl
    · split
      · rfl
      · split <;> rfl
  | leave node =>
    rw [applyInEra, applyInEra]
    dsimp only
    cases c.order.findIdx? fun member => member.node == node with
    | none => rfl
    | some index =>
      change (if c.weightAt node ≠ 0 then _ else _) =
        Except.map _ (if c.weightAt node ≠ 0 then _ else _)
      split <;> rfl
  | nominate fromView offset =>
    rw [applyInEra, applyInEra]
    split <;> rfl
  | _ => rfl

/-- One move inside an era. -/
def Moves (target c d : Configuration) : Prop :=
  c.order ≠ [] ∧ ∃ op ∈ candidates c target, c.applyInEra op = .ok d

/-- One move between shapes. -/
def Edge (target : Configuration) (k k' : Shape) : Prop :=
  ∃ c d, Moves target c d ∧ shape c = k ∧ shape d = k'

/-- A candidate that is accepted is a move, and costs an era. -/
theorem apply_candidate {target c next : Configuration} {op : SystemOperation}
    (hop : op ∈ candidates c target) {slot : Nat} :
    c.apply op slot = .ok next ↔ c.order ≠ [] ∧ c.era + 1 < u32Bound ∧
      ∃ folded, c.applyInEra op = .ok folded ∧ next = { folded with era := c.era + 1 } := by
  obtain ⟨hsingle, hnominate⟩ := isSingle_of_mem hop
  rw [apply_single hsingle, and_iff_right hnominate]

/-! ### The search as a depth-first search -/

/-- What the solver searches. -/
def space (target : Configuration) : DepthFirst.Space Configuration SystemOperation Shape where
  key := shape
  wanted := shape target
  moves c := (candidates c target).filterMap fun op =>
    (c.apply op Slot.none).toOption.map (Prod.mk op)

theorem mem_moves {target c next : Configuration} {op : SystemOperation} :
    (op, next) ∈ (space target).moves c ↔
      op ∈ candidates c target ∧ c.apply op Slot.none = .ok next := by
  simp only [space, List.mem_filterMap, Option.map_eq_some_iff, Prod.mk.injEq]
  constructor
  · rintro ⟨op, hop, next, hnext, rfl, rfl⟩
    exact ⟨hop, toOption_eq_some hnext⟩
  · rintro ⟨hop, hnext⟩
    exact ⟨op, hop, next, by rw [hnext]; rfl, rfl, rfl⟩

/-- The path of a search in the order of its pushes. -/
def pushed (found : List Shape × Option (List SystemOperation)) :
    List Shape × Option (List SystemOperation) :=
  (found.1, found.2.map List.reverse)

theorem tryEach_eq
    {search search' : Configuration → List Shape →
      Option (List Shape × Option (List SystemOperation))}
    (hsearch : ∀ c visited, search c visited = (search' c visited).map pushed)
    (c : Configuration) (ops : List SystemOperation) (visited : List Shape) :
    tryEach search c ops visited = (DepthFirst.each search'
      (ops.filterMap fun op => (c.apply op Slot.none).toOption.map (Prod.mk op)) visited).map
        pushed := by
  induction ops generalizing visited with
  | nil => rfl
  | cons op ops ih =>
    rw [tryEach, List.filterMap_cons]
    cases c.apply op Slot.none with
    | error error => exact ih visited
    | ok next =>
      dsimp only [Except.toOption, Option.map_some]
      rw [DepthFirst.each, hsearch]
      cases search' next visited with
      | none => rfl
      | some found =>
        obtain ⟨seen, _ | path⟩ := found
        · exact ih seen
        · simp [pushed]

theorem go_eq (target : Configuration) (fuel : Nat) (c : Configuration) (visited : List Shape) :
    go target fuel c visited = ((space target).search fuel c visited).map pushed := by
  induction fuel generalizing c visited with
  | zero => rfl
  | succ fuel ih =>
    rw [go, DepthFirst.Space.search]
    by_cases hwanted : shape c = shape target
    · have hkey : (space target).key c = (space target).wanted := hwanted
      rw [if_pos hwanted, if_pos hkey]
      rfl
    · have hkey : ¬(space target).key c = (space target).wanted := hwanted
      rw [if_neg hwanted, if_neg hkey]
      by_cases hseen : shape c ∈ visited
      · have hkey : (space target).key c ∈ visited := hseen
        rw [if_pos hseen, if_pos hkey]
        rfl
      · have hkey : (space target).key c ∉ visited := hseen
        rw [if_neg hseen, if_neg hkey]
        exact tryEach_eq ih c _ _

theorem solve_eq (fuel : Nat) (c target : Configuration) :
    solve fuel c target = ((space target).search fuel c []).map Prod.snd := by
  rw [solve, go_eq, Option.map_map]
  congr 1
  funext found
  simp [pushed]

/-- **The moves of a configuration depend on its shape as long as its eras last.** -/
theorem space_explores (target : Configuration) :
    (space target).Explores (Edge target) erasLeft where
  spends := by
    rintro c ⟨op, next⟩ hmem
    obtain ⟨hop, hnext⟩ := mem_moves.mp hmem
    obtain ⟨-, hroom, folded, -, rfl⟩ := (apply_candidate hop).mp hnext
    show u32Bound - 1 - (c.era + 1) + 1 = u32Bound - 1 - c.era
    omega
  follows := by
    rintro c ⟨op, next⟩ hmem
    obtain ⟨hop, hnext⟩ := mem_moves.mp hmem
    obtain ⟨hne, -, folded, hfolded, rfl⟩ := (apply_candidate hop).mp hnext
    exact ⟨c, folded, ⟨hne, op, hop, hfolded⟩, rfl, rfl⟩
  covers := by
    rintro c k hpositive ⟨d, e, ⟨hne, op, hop, hfolded⟩, hd, rfl⟩
    have horder : d.order = c.order := shape_inj.mp hd
    have hsame : c = { d with era := c.era } := by rw [horder]
    have hop' : op ∈ candidates c target := by
      rw [hsame]
      exact hop
    have hera : c.era + 1 < u32Bound := by
      have hleft : 0 < u32Bound - 1 - c.era := hpositive
      omega
    refine ⟨(op, { e with era := c.era + 1 }), mem_moves.mpr ⟨hop', ?_⟩, rfl⟩
    refine (apply_candidate hop').mpr ⟨horder ▸ hne, hera, { e with era := c.era }, ?_, rfl⟩
    rw [hsame, applyInEra_era, hfolded]
    rfl

/-! ### What the search comes to -/

theorem solve_mono {fuel fuel' : Nat} (hle : fuel ≤ fuel') {c target : Configuration}
    {result : Option (List SystemOperation)} (h : solve fuel c target = some result) :
    solve fuel' c target = some result := by
  rw [solve_eq] at h ⊢
  obtain ⟨found, hfound, rfl⟩ := Option.map_eq_some_iff.mp h
  rw [DepthFirst.search_mono hle hfound]
  rfl

/-- **The search ends**: it spends an era with each operation. -/
theorem solve_ends (c target : Configuration) :
    ∃ result, solve (c.erasLeft + 1) c target = some result := by
  have hrank : ∀ d, ∀ move ∈ (space target).moves d, move.2.erasLeft < d.erasLeft :=
    fun d move hmove => by
      have hspent := (space_explores target).spends d move hmove
      omega
  obtain ⟨found, hfound⟩ := Option.isSome_iff_exists.mp
    (DepthFirst.search_isSome hrank (Nat.lt_succ_self c.erasLeft) [])
  exact ⟨found.2, by rw [solve_eq, hfound]; rfl⟩

/-- **What the search finds folds**, each operation a candidate of the configuration it is for. -/
theorem solve_leads {fuel : Nat} {c target : Configuration} {path : List SystemOperation}
    (h : solve fuel c target = some (some path)) :
    ∃ last, (space target).Leads c path last ∧ last.order = target.order := by
  rw [solve_eq] at h
  obtain ⟨⟨seen, found⟩, hfound, hpath⟩ := Option.map_eq_some_iff.mp h
  subst hpath
  obtain ⟨last, hleads, hlast⟩ := DepthFirst.search_sound hfound
  exact ⟨last, hleads, shape_inj.mp hlast⟩

theorem applyEach_of_leads {c last target : Configuration} {path : List SystemOperation}
    (h : (space target).Leads c path last) : c.applyEach path = .ok last := by
  induction path generalizing c with
  | nil =>
    cases h
    rfl
  | cons op path ih =>
    obtain ⟨next, hmove, hleads⟩ := h
    rw [applyEach, (mem_moves.mp hmove).2]
    exact ih hleads

/-- No chain of moves that could still come to the target outlasts the eras. -/
def Lasts (c target : Configuration) : Prop :=
  ∀ trail, DepthFirst.Trail (Edge target) (shape c) trail →
    (∀ k ∈ trail, Relation.ReflTransGen (Edge target) k (shape target)) →
    shape target ∉ trail → trail.length ≤ c.erasLeft

/-- A way lies open: no candidate that is tried in front of a step of it comes, with the eras there
are, to a shape further on. -/
def LiesOpen (c target : Configuration) : Prop := ∃ path, (space target).Clear [] c path

/-- **The eras suffice.** -/
def Room (c target : Configuration) : Prop := Lasts c target ∨ LiesOpen c target

/-- Where the eras last, what can be reached is open. -/
theorem Lasts.liesOpen {c target : Configuration} (h : Lasts c target)
    (hreach : Relation.ReflTransGen (Edge target) (shape c) (shape target)) :
    LiesOpen c target := by
  have hoff : DepthFirst.Off (Edge target) (shape target) [] (shape c) :=
    ⟨List.not_mem_nil,
      Relation.ReflTransGen.mono (fun _ _ hedge => ⟨hedge, List.not_mem_nil⟩) _ _ hreach⟩
  obtain ⟨path, hclear, -⟩ := DepthFirst.exists_clear (space_explores target) h rfl (Nat.zero_add _)
    .start List.not_mem_nil (by simp) hoff
  exact ⟨path, hclear⟩

/-- **The search finds what the candidates reach**, as long as the eras suffice. -/
theorem solve_finds {c d target : Configuration} (hroom : Room c target)
    (hreach : Relation.ReflTransGen (Moves target) c d) (hd : d.order = target.order) :
    ∃ path, solve (c.erasLeft + 1) c target = some (some path) := by
  obtain ⟨way, hclear⟩ : LiesOpen c target := by
    refine hroom.elim (fun hlasts => hlasts.liesOpen ?_) id
    rw [← shape_inj.mpr hd]
    exact hreach.lift shape fun first second hmove => ⟨first, second, hmove, rfl, rfl⟩
  obtain ⟨result, hresult⟩ := solve_ends c target
  rw [solve_eq] at hresult ⊢
  obtain ⟨⟨seen, found⟩, hfound, -⟩ := Option.map_eq_some_iff.mp hresult
  obtain ⟨path, hsome⟩ := Option.isSome_iff_exists.mp
    (DepthFirst.search_clear hclear (by simp) (by simp) hfound)
  exact ⟨path, by rw [hfound, hsome]; rfl⟩

end Solve

end UvrrCore
