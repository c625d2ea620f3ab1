import Mathlib.Data.List.Nodup
import Mathlib.Logic.Relation

/-!
# Depth-first search by keys

A search from a state to any state of a wanted key. It follows the moves of a state in their
order, and a state whose key it has seen it leaves at once, so that what a state can do beyond its
key is seen by the search only the first time it comes to that key.

* `search_sound`: a path that is found leads to the wanted key.
* `search_isSome`: where each move lowers a rank, the search ends.
* `search_clear`: the search does not miss a clear way, one that nothing tried earlier comes across.
* `exists_clear`: where the moves of a state depend on its key as long as a budget lasts, and no
  self-avoiding trail outlasts the budget, there is a clear way to whatever can be reached.
-/

namespace DepthFirst

variable {σ μ κ : Type}

/-- What is searched: states with a key and labelled moves, and the key that is wanted. -/
structure Space (σ μ κ : Type) where
  key : σ → κ
  wanted : κ
  moves : σ → List (μ × σ)

/-- A path of labels between two states. -/
def Space.Leads (space : Space σ μ κ) : σ → List μ → σ → Prop
  | s, [], t => s = t
  | s, label :: path, t => ∃ u, (label, u) ∈ space.moves s ∧ Leads space u path t

/-! ### Counted steps -/

/-- A state within so many steps of another. -/
def Within (step : σ → σ → Prop) : Nat → σ → σ → Prop
  | 0, s, t => s = t
  | n + 1, s, t => s = t ∨ ∃ u, step s u ∧ Within step n u t

section Within

variable {step : σ → σ → Prop} {s t u : σ} {m n : Nat}

theorem Within.refl (n : Nat) (s : σ) : Within step n s s := by
  cases n with
  | zero => rfl
  | succ n => exact .inl rfl

theorem Within.single (h : step s t) : Within step 1 s t := .inr ⟨t, h, rfl⟩

theorem Within.mono (hle : m ≤ n) (h : Within step m s t) : Within step n s t := by
  induction m generalizing n s with
  | zero => exact h ▸ .refl n s
  | succ m ih =>
    obtain ⟨n, rfl⟩ := Nat.exists_eq_add_of_le' (Nat.le_of_add_left_le hle)
    rcases h with rfl | ⟨u, hstep, h⟩
    · exact .refl _ _
    · exact .inr ⟨u, hstep, ih (Nat.le_of_succ_le_succ hle) h⟩

theorem Within.trans (h : Within step m s t) (h' : Within step n t u) :
    Within step (m + n) s u := by
  induction m generalizing s with
  | zero => exact h ▸ h'.mono (Nat.le_add_left n 0)
  | succ m ih =>
    rcases h with rfl | ⟨v, hstep, h⟩
    · exact h'.mono (Nat.le_add_left _ _)
    · rw [Nat.succ_add]
      exact .inr ⟨v, hstep, ih h⟩

/-- What a step keeps, steps keep. -/
theorem Within.keeps {P : σ → Prop} (hstep : ∀ s t, step s t → P s → P t) (h : Within step n s t)
    (hs : P s) : P t := by
  induction n generalizing s with
  | zero => exact h ▸ hs
  | succ n ih =>
    rcases h with rfl | ⟨v, hfirst, h⟩
    · exact hs
    · exact ih h (hstep _ _ hfirst hs)

theorem Within.reflTransGen (h : Within step n s t) : Relation.ReflTransGen step s t :=
  h.keeps (P := Relation.ReflTransGen step s) (fun _ _ hstep hs => hs.tail hstep) .refl

end Within

/-! ### The moves of one state -/

/-- The moves one after the other, until one of them finds a path. -/
def each (search : σ → List κ → Option (List κ × Option (List μ))) :
    List (μ × σ) → List κ → Option (List κ × Option (List μ))
  | [], visited => some (visited, none)
  | (label, t) :: rest, visited =>
    match search t visited with
    | none => none
    | some (visited, some path) => some (visited, some (label :: path))
    | some (visited, none) => each search rest visited

theorem each_sound {search : σ → List κ → Option (List κ × Option (List μ))}
    {moves : List (μ × σ)} {visited visited' : List κ} {path : List μ}
    (h : each search moves visited = some (visited', some path)) :
    ∃ label t rest seen, (label, t) ∈ moves ∧ path = label :: rest ∧
      search t seen = some (visited', some rest) := by
  induction moves generalizing visited with
  | nil => cases h
  | cons move moves ih =>
    obtain ⟨label, t⟩ := move
    rw [each] at h
    split at h
    · cases h
    · rename_i seen rest hfound
      cases h
      exact ⟨label, t, rest, visited, List.mem_cons_self, rfl, hfound⟩
    · obtain ⟨label', t', rest, seen, hmem, hpath, hfound⟩ := ih h
      exact ⟨label', t', rest, seen, List.mem_cons_of_mem _ hmem, hpath, hfound⟩

theorem each_mono {search search' : σ → List κ → Option (List κ × Option (List μ))}
    (hsearch : ∀ t seen result, search t seen = some result → search' t seen = some result)
    {moves : List (μ × σ)} {visited : List κ} {result : List κ × Option (List μ)}
    (h : each search moves visited = some result) : each search' moves visited = some result := by
  induction moves generalizing visited with
  | nil => exact h
  | cons move moves ih =>
    obtain ⟨label, t⟩ := move
    rw [each] at h ⊢
    cases hfound : search t visited with
    | none =>
      rw [hfound] at h
      cases h
    | some found =>
      rw [hsearch _ _ _ hfound]
      rw [hfound] at h
      obtain ⟨seen, _ | path⟩ := found
      · exact ih h
      · exact h

theorem each_isSome {search : σ → List κ → Option (List κ × Option (List μ))}
    {moves : List (μ × σ)} (h : ∀ move ∈ moves, ∀ seen, (search move.2 seen).isSome)
    (visited : List κ) : (each search moves visited).isSome := by
  induction moves generalizing visited with
  | nil => rfl
  | cons move moves ih =>
    obtain ⟨label, t⟩ := move
    obtain ⟨hfirst, hrest⟩ := List.forall_mem_cons.mp h
    obtain ⟨found, hfound⟩ := Option.isSome_iff_exists.mp (hfirst visited)
    rw [each, hfound]
    obtain ⟨seen, _ | path⟩ := found
    · exact ih hrest seen
    · rfl

/-- The seen keys have grown, by keys of this kind. -/
structure Marked (P : κ → Prop) (visited visited' : List κ) : Prop where
  keeps : ∀ k ∈ visited, k ∈ visited'
  news : ∀ k ∈ visited', k ∈ visited ∨ P k

theorem Marked.refl (P : κ → Prop) (visited : List κ) : Marked P visited visited :=
  ⟨fun _ => id, fun _ => .inl⟩

theorem Marked.trans {P : κ → Prop} {before middle after : List κ} (h : Marked P before middle)
    (h' : Marked P middle after) : Marked P before after where
  keeps k hk := h'.keeps k (h.keeps k hk)
  news k hk := (h'.news k hk).elim (h.news k) .inr

theorem each_marks {P : κ → Prop} {search : σ → List κ → Option (List κ × Option (List μ))}
    {moves : List (μ × σ)} {visited visited' : List κ}
    (hsearch : ∀ move ∈ moves, ∀ seen seen', (∀ k ∈ visited, k ∈ seen) →
      search move.2 seen = some (seen', none) → Marked P seen seen')
    (h : each search moves visited = some (visited', none)) : Marked P visited visited' := by
  induction moves generalizing visited with
  | nil =>
    cases h
    exact .refl P _
  | cons move moves ih =>
    obtain ⟨label, t⟩ := move
    obtain ⟨hfirst, hrest⟩ := List.forall_mem_cons.mp hsearch
    rw [each] at h
    split at h
    · cases h
    · cases h
    · rename_i seen hfound
      have hmarked := hfirst visited seen (fun _ => id) hfound
      exact hmarked.trans (ih (fun move hmem before after hsub => hrest move hmem before after
        fun k hk => hsub k (hmarked.keeps k hk)) h)

/-- Moves behind others are tried if those find nothing. -/
theorem each_append (search : σ → List κ → Option (List κ × Option (List μ)))
    (before after : List (μ × σ)) (visited : List κ) :
    each search (before ++ after) visited =
      (each search before visited).bind fun found =>
        match found.2 with
        | none => each search after found.1
        | some _ => some found := by
  induction before generalizing visited with
  | nil => rfl
  | cons move before ih =>
    obtain ⟨label, t⟩ := move
    rw [List.cons_append, each, each]
    cases search t visited with
    | none => rfl
    | some found =>
      obtain ⟨seen, _ | path⟩ := found
      · exact ih seen
      · rfl

/-- A move that finds a path whatever the moves in front of it have marked. -/
theorem each_finds {P : κ → Prop} {search : σ → List κ → Option (List κ × Option (List μ))}
    {before after : List (μ × σ)} {move : μ × σ} {visited visited' : List κ}
    {result : Option (List μ)}
    (hbefore : ∀ other ∈ before, ∀ seen seen', (∀ k ∈ visited, k ∈ seen) →
      search other.2 seen = some (seen', none) → Marked P seen seen')
    (hmove : ∀ seen seen' result, Marked P visited seen →
      search move.2 seen = some (seen', result) → result.isSome)
    (h : each search (before ++ move :: after) visited = some (visited', result)) :
    result.isSome := by
  rw [each_append] at h
  obtain ⟨⟨seen, found⟩, hfound, h⟩ := Option.bind_eq_some_iff.mp h
  cases found with
  | some path =>
    cases h
    rfl
  | none =>
    obtain ⟨label, t⟩ := move
    have hmarked := each_marks hbefore hfound
    dsimp only at h
    rw [each] at h
    cases hmoved : search t seen with
    | none =>
      rw [hmoved] at h
      cases h
    | some moved =>
      obtain ⟨later, _ | path⟩ := moved
      · have hnone := hmove seen later none hmarked hmoved
        cases hnone
      · rw [hmoved] at h
        cases h
        rfl

/-! ### Trails -/

/-- A trail through the keys that never meets itself, the latest key first. -/
inductive Trail (edge : κ → κ → Prop) (start : κ) : List κ → Prop
  | start : Trail edge start [start]
  | step {k k' : κ} {trail : List κ} : Trail edge start (k :: trail) → edge k k' →
      k' ∉ k :: trail → Trail edge start (k' :: k :: trail)

theorem Trail.nodup {edge : κ → κ → Prop} {start : κ} {trail : List κ}
    (h : Trail edge start trail) : trail.Nodup := by
  induction h with
  | start => exact List.nodup_singleton _
  | step _ _ hfresh ih => exact List.nodup_cons.mpr ⟨hfresh, ih⟩

theorem Trail.keeps {edge : κ → κ → Prop} {start : κ} {P : κ → Prop}
    (hstep : ∀ k k', edge k k' → P k → P k') (hstart : P start) {trail : List κ}
    (h : Trail edge start trail) : ∀ k ∈ trail, P k := by
  induction h with
  | start => exact fun k hk => List.mem_singleton.mp hk ▸ hstart
  | step _ hedge _ ih =>
    exact List.forall_mem_cons.mpr ⟨hstep _ _ hedge (ih _ List.mem_cons_self), ih⟩

/-- Where an edge keeps a part of the key or else raises a rank, the keys of one rank on a trail
share that part. -/
theorem Trail.part_of_rank {β : Type} (part : κ → β) (rank : κ → Nat) {edge : κ → κ → Prop}
    {start : κ} {P : κ → Prop} (hkeeps : ∀ k k', edge k k' → P k → P k')
    (hstep : ∀ k k', edge k k' → P k → rank k' = rank k ∧ part k' = part k ∨ rank k < rank k')
    (hstart : P start) {trail : List κ} (h : Trail edge start trail) :
    ∀ k ∈ trail, ∀ k' ∈ trail, rank k = rank k' → part k = part k' := by
  -- the latest key has the highest rank
  suffices hlatest : ∃ latest ∈ trail.head?, P latest ∧
      (∀ k ∈ trail, rank k = rank latest ∧ part k = part latest ∨ rank k < rank latest) ∧
      ∀ k ∈ trail, ∀ k' ∈ trail, rank k = rank k' → part k = part k' by
    obtain ⟨-, -, -, -, hshared⟩ := hlatest
    exact hshared
  induction h with
  | start => exact ⟨start, rfl, hstart, by simp, by simp⟩
  | step _ hedge _ ih =>
    rename_i k k' trail _ _
    obtain ⟨latest, hhead, hP, hranks, hshared⟩ := ih
    obtain rfl : k = latest := Option.some.inj hhead
    have hnew : ∀ x ∈ k :: trail, rank x = rank k' ∧ part x = part k' ∨ rank x < rank k' := by
      intro x hx
      rcases hstep k k' hedge hP with ⟨hrank, hpart⟩ | hless
      · rw [hrank, hpart]
        exact hranks x hx
      · exact .inr ((hranks x hx).elim (fun h => Nat.lt_of_le_of_lt (Nat.le_of_eq h.1) hless)
          fun h => Nat.lt_trans h hless)
    have hboth : ∀ x ∈ k :: trail, rank x = rank k' → part x = part k' := fun x hx heq =>
      (hnew x hx).elim And.right fun h => absurd heq (Nat.ne_of_lt h)
    refine ⟨k', rfl, hkeeps k k' hedge hP,
      List.forall_mem_cons.mpr ⟨.inl ⟨rfl, rfl⟩, hnew⟩, ?_⟩
    refine List.forall_mem_cons.mpr ⟨List.forall_mem_cons.mpr ⟨fun _ => rfl, fun x hx heq => ?_⟩,
      fun x hx => List.forall_mem_cons.mpr ⟨hboth x hx, hshared x hx⟩⟩
    exact (hboth x hx heq.symm).symm

theorem Leads.keeps {space : Space σ μ κ} {P : σ → Prop}
    (hstep : ∀ s, ∀ move ∈ space.moves s, P s → P move.2) {s t : σ} {path : List μ}
    (h : space.Leads s path t) (hs : P s) : P t := by
  induction path generalizing s with
  | nil => exact h ▸ hs
  | cons label path ih =>
    obtain ⟨u, hmove, h⟩ := h
    exact ih h (hstep s _ hmove hs)

/-! ### Clear ways -/

section Ways

variable {space : Space σ μ κ}

/-- A walk by the moves that stays off these keys. -/
inductive Space.Walk (space : Space σ μ κ) (seen : List κ) : σ → σ → Prop
  | here {s : σ} : space.key s ∉ seen → Walk space seen s s
  | step {s t : σ} {move : μ × σ} : space.key s ∉ seen → move ∈ space.moves s →
      Walk space seen move.2 t → Walk space seen s t

theorem Space.Walk.mono {seen seen' : List κ} (hsub : ∀ k ∈ seen, k ∈ seen') {s t : σ}
    (h : space.Walk seen' s t) : space.Walk seen s t := by
  induction h with
  | here hs => exact .here (mt (hsub _) hs)
  | step hs hmove _ ih => exact .step (mt (hsub _) hs) hmove ih

/-- **A clear way to the wanted key**, and its keys. No move that is tried in front of a step of it
can walk, off the keys in between, to a key that is further on. -/
inductive Space.Clear (space : Space σ μ κ) : List κ → σ → List κ → Prop
  | wanted {stack : List κ} {s : σ} : space.key s = space.wanted → Clear space stack s []
  | step {stack path : List κ} {s : σ} {before after : List (μ × σ)} {move : μ × σ} :
      space.moves s = before ++ move :: after → space.key s ∉ stack →
      (∀ other ∈ before, ∀ t, space.Walk (space.key s :: stack) other.2 t →
        space.key t ∉ path) →
      Clear space (space.key s :: stack) move.2 path →
      Clear space stack s (space.key s :: path)

/-- The first moves make a clear way. -/
theorem Space.Clear.first {stack path : List κ} {s : σ} {move : μ × σ} {after : List (μ × σ)}
    (hmoves : space.moves s = move :: after) (hnew : space.key s ∉ stack)
    (h : space.Clear (space.key s :: stack) move.2 path) :
    space.Clear stack s (space.key s :: path) :=
  .step (show _ = [] ++ move :: after from hmoves) hnew (by simp) h

theorem Space.Clear.fresh {stack path : List κ} {s : σ} (h : space.Clear stack s path) :
    ∀ k ∈ path, k ∉ stack := by
  induction h with
  | wanted _ => simp
  | step _ hnew _ _ ih =>
    exact List.forall_mem_cons.mpr
      ⟨hnew, fun k hk hin => ih k hk (List.mem_cons_of_mem _ hin)⟩

/-- **The moves depend on the key, as long as the budget lasts**: each one spends a unit of it and
follows an edge between keys, and every edge is followed where there is a unit to spend. -/
structure Space.Explores (space : Space σ μ κ) (edge : κ → κ → Prop) (budget : σ → Nat) :
    Prop where
  spends : ∀ s, ∀ move ∈ space.moves s, budget move.2 + 1 = budget s
  follows : ∀ s, ∀ move ∈ space.moves s, edge (space.key s) (space.key move.2)
  covers : ∀ s k, 0 < budget s → edge (space.key s) k → ∃ move ∈ space.moves s,
    space.key move.2 = k
/-- A key from which the wanted one can be reached off these. -/
def Off (edge : κ → κ → Prop) (wanted : κ) (seen : List κ) (k : κ) : Prop :=
  k ∉ seen ∧ Relation.ReflTransGen (fun x y => edge x y ∧ y ∉ seen) k wanted

theorem Off.leads {edge : κ → κ → Prop} {wanted : κ} {seen : List κ} {k : κ}
    (h : Off edge wanted seen k) : Relation.ReflTransGen edge k wanted :=
  Relation.ReflTransGen.mono (fun _ _ => And.left) _ _ h.2

theorem Off.head {edge : κ → κ → Prop} {wanted : κ} {seen : List κ} {k k' : κ}
    (hnew : k ∉ seen) (hedge : edge k k') (h : Off edge wanted seen k') : Off edge wanted seen k :=
  ⟨hnew, h.2.head ⟨hedge, h.1⟩⟩

theorem Off.mono {edge : κ → κ → Prop} {wanted : κ} {seen seen' : List κ}
    (hsub : ∀ k ∈ seen, k ∈ seen') {k : κ} (h : Off edge wanted seen' k) : Off edge wanted seen k :=
  ⟨mt (hsub k) h.1, Relation.ReflTransGen.mono (fun _ y hxy => ⟨hxy.1, mt (hsub y) hxy.2⟩) _ _ h.2⟩

/-- Where the wanted key can be reached, it can be reached without coming back: the step is the last
one that leaves the key. -/
theorem Off.leave {edge : κ → κ → Prop} {wanted : κ} {seen : List κ} {k : κ}
    (h : Off edge wanted seen k) (hk : k ≠ wanted) :
    ∃ k', edge k k' ∧ Off edge wanted (k :: seen) k' := by
  obtain ⟨hnew, hreach⟩ := h
  suffices hall : ∀ x, x ∉ seen → Relation.ReflTransGen (fun x y => edge x y ∧ y ∉ seen) x wanted →
      Off edge wanted (k :: seen) x ∨ ∃ k', edge k k' ∧ Off edge wanted (k :: seen) k' from
    (hall k hnew hreach).resolve_left fun hoff => hoff.1 List.mem_cons_self
  intro x hx hwalk
  induction hwalk using Relation.ReflTransGen.head_induction_on with
  | refl => exact .inl ⟨List.not_mem_cons_of_ne_of_not_mem hk.symm hx, .refl⟩
  | head hstep _ ih =>
    rename_i x y _
    rcases ih hstep.2 with hoff | hleaves
    · by_cases heq : x = k
      · subst heq
        exact .inr ⟨y, hstep.1, hoff⟩
      · exact .inl (hoff.head (List.not_mem_cons_of_ne_of_not_mem heq hx) hstep.1)
    · exact .inr hleaves

theorem Space.Walk.off {edge : κ → κ → Prop} {budget : σ → Nat} (hspace : space.Explores edge budget)
    {seen : List κ} {s t : σ} (h : space.Walk seen s t)
    (hoff : Off edge space.wanted seen (space.key t)) : Off edge space.wanted seen (space.key s) := by
  induction h with
  | here _ => exact hoff
  | step hs hmove _ ih => exact (ih hoff).head hs (hspace.follows _ _ hmove)

/-- The first of some moves that is of a kind. -/
theorem exists_first {P : μ × σ → Prop} {moves : List (μ × σ)} (h : ∃ move ∈ moves, P move) :
    ∃ before move after, moves = before ++ move :: after ∧ P move ∧ ∀ other ∈ before, ¬P other := by
  classical
  obtain ⟨move, hmem, hmove⟩ := h
  obtain ⟨first, hfirst⟩ := Option.isSome_iff_exists.mp
    (List.find?_isSome (p := fun move => decide (P move)) |>.mpr ⟨move, hmem, by simpa using hmove⟩)
  obtain ⟨hkind, before, after, hmoves, hothers⟩ := List.find?_eq_some_iff_append.mp hfirst
  exact ⟨before, first, after, hmoves, by simpa using hkind, by simpa using hothers⟩

/-- **Where no trail outlasts the budget there is a clear way**: each step of it is the first move
from which the wanted key can be reached without coming back. The trails that count are those on
which it can be reached from each key. -/
theorem exists_clear {edge : κ → κ → Prop} {budget : σ → Nat}
    (hspace : space.Explores edge budget) {start : κ} {bound : Nat}
    (hroom : ∀ trail, Trail edge start trail →
      (∀ k ∈ trail, Relation.ReflTransGen edge k space.wanted) → space.wanted ∉ trail →
      trail.length ≤ bound)
    {n : Nat} {s : σ} {stack : List κ} (hn : budget s = n) (hbudget : stack.length + n = bound)
    (htrail : Trail edge start (space.key s :: stack)) (hmisses : space.wanted ∉ stack)
    (hstack : ∀ k ∈ stack, Relation.ReflTransGen edge k space.wanted)
    (hoff : Off edge space.wanted stack (space.key s)) :
    ∃ path, space.Clear stack s path ∧ ∀ k ∈ path, Off edge space.wanted stack k := by
  induction n generalizing s stack with
  | zero =>
    by_cases hwanted : space.key s = space.wanted
    · exact ⟨[], .wanted hwanted, by simp⟩
    · have hlength := hroom _ htrail (List.forall_mem_cons.mpr ⟨hoff.leads, hstack⟩)
        (List.not_mem_cons_of_ne_of_not_mem (Ne.symm hwanted) hmisses)
      rw [List.length_cons] at hlength
      omega
  | succ n ih =>
    by_cases hwanted : space.key s = space.wanted
    · exact ⟨[], .wanted hwanted, by simp⟩
    · obtain ⟨k', hedge, hoff'⟩ := hoff.leave hwanted
      obtain ⟨move, hmove, rfl⟩ := hspace.covers s k' (by omega) hedge
      obtain ⟨before, first, after, hmoves, hfirst, hothers⟩ :=
        exists_first (P := fun move => Off edge space.wanted (space.key s :: stack)
          (space.key move.2)) ⟨move, hmove, hoff'⟩
      have hmem : first ∈ space.moves s := by simp [hmoves]
      have hspent := hspace.spends s first hmem
      obtain ⟨path, hclear, hpath⟩ := @ih first.2 (space.key s :: stack) (by omega)
        (by rw [List.length_cons]; omega) (htrail.step (hspace.follows s first hmem) hfirst.1)
        (List.not_mem_cons_of_ne_of_not_mem (Ne.symm hwanted) hmisses)
        (List.forall_mem_cons.mpr ⟨hoff.leads, hstack⟩) hfirst
      refine ⟨space.key s :: path, .step hmoves hoff.1 (fun other hother t hwalk hin => ?_) hclear,
        List.forall_mem_cons.mpr ⟨hoff, fun k hk =>
          (hpath k hk).mono fun _ => List.mem_cons_of_mem _⟩⟩
      exact hothers other hother (hwalk.off hspace (hpath _ hin))

end Ways

/-! ### The search -/

section Search

variable [DecidableEq κ] {space : Space σ μ κ}

/-- The search, as deep as the fuel allows: the keys seen, and the path if one was found. -/
def Space.search (space : Space σ μ κ) : Nat → σ → List κ → Option (List κ × Option (List μ))
  | 0, _, _ => none
  | fuel + 1, s, visited =>
    if space.key s = space.wanted then some (visited, some [])
    else if space.key s ∈ visited then some (visited, none)
    else each (space.search fuel) (space.moves s) (space.key s :: visited)

/-! ### What is found -/

/-- **What the search finds is a path to the wanted key.** -/
theorem search_sound {fuel : Nat} {s : σ} {visited visited' : List κ} {path : List μ}
    (h : space.search fuel s visited = some (visited', some path)) :
    ∃ t, space.Leads s path t ∧ space.key t = space.wanted := by
  induction fuel generalizing s visited visited' path with
  | zero => cases h
  | succ fuel ih =>
    rw [Space.search] at h
    split at h
    · rename_i hwanted
      cases h
      exact ⟨s, rfl, hwanted⟩
    · split at h
      · cases h
      · obtain ⟨label, t, rest, seen, hmem, rfl, hfound⟩ := each_sound h
        obtain ⟨last, hleads, hlast⟩ := ih hfound
        exact ⟨last, ⟨t, hmem, hleads⟩, hlast⟩

/-! ### Fuel -/

/-- More fuel changes nothing. -/
theorem search_mono {fuel fuel' : Nat} (hle : fuel ≤ fuel') {s : σ} {visited : List κ}
    {result : List κ × Option (List μ)} (h : space.search fuel s visited = some result) :
    space.search fuel' s visited = some result := by
  induction fuel generalizing fuel' s visited result with
  | zero => cases h
  | succ fuel ih =>
    obtain ⟨fuel', rfl⟩ := Nat.exists_eq_add_of_le' (Nat.le_of_add_left_le hle)
    rw [Space.search] at h ⊢
    split
    · rename_i hwanted
      rwa [if_pos hwanted] at h
    · rename_i hother
      rw [if_neg hother] at h
      split
      · rename_i hseen
        rwa [if_pos hseen] at h
      · rename_i hfresh
        rw [if_neg hfresh] at h
        exact each_mono (fun _ _ _ => ih (Nat.le_of_succ_le_succ hle)) h

/-- **Where the moves lower a rank, the search ends.** -/
theorem search_isSome {rank : σ → Nat} (hrank : ∀ s, ∀ move ∈ space.moves s, rank move.2 < rank s)
    {fuel : Nat} {s : σ} (hfuel : rank s < fuel) (visited : List κ) :
    (space.search fuel s visited).isSome := by
  induction fuel generalizing s visited with
  | zero => exact absurd hfuel (Nat.not_lt_zero _)
  | succ fuel ih =>
    rw [Space.search]
    split
    · rfl
    · split
      · rfl
      · exact each_isSome (fun move hmem => ih (by have := hrank s move hmem; omega)) _

/-! ### What is not missed -/

/-- A search that comes back with nothing has marked only what it could walk to. -/
theorem search_marks {fuel : Nat} {s : σ} {visited visited' : List κ}
    (h : space.search fuel s visited = some (visited', none)) :
    Marked (fun k => ∃ t, space.Walk visited s t ∧ space.key t = k) visited visited' := by
  induction fuel generalizing s visited visited' with
  | zero => cases h
  | succ fuel ih =>
    rw [Space.search] at h
    split at h
    · cases h
    · split at h
      · cases h
        exact .refl _ visited
      · rename_i hfresh
        have hmarked : Marked (fun k => ∃ t, space.Walk visited s t ∧ space.key t = k)
            (space.key s :: visited) visited' := by
          refine each_marks (fun move hmove seen seen' hsub hfound => ?_) h
          have hinner := ih hfound
          refine ⟨hinner.keeps, fun k hk => (hinner.news k hk).imp_right ?_⟩
          rintro ⟨t, hwalk, hkey⟩
          exact ⟨t, .step hfresh hmove (hwalk.mono fun k hk => hsub k (List.mem_cons_of_mem _ hk)),
            hkey⟩
        refine ⟨fun k hk => hmarked.keeps k (List.mem_cons_of_mem _ hk), fun k hk => ?_⟩
        rcases hmarked.news k hk with hold | hnew
        · rcases List.mem_cons.mp hold with rfl | hold
          · exact .inr ⟨s, .here hfresh, rfl⟩
          · exact .inl hold
        · exact .inr hnew

/-- **The search does not miss a clear way.** -/
theorem search_clear {stack path : List κ} {s : σ} (hclear : space.Clear stack s path) {fuel : Nat}
    {visited visited' : List κ} {result : Option (List μ)} (hstack : ∀ k ∈ stack, k ∈ visited)
    (hpath : ∀ k ∈ path, k ∉ visited)
    (h : space.search fuel s visited = some (visited', result)) : result.isSome := by
  induction hclear generalizing fuel visited visited' result with
  | wanted hwanted =>
    cases fuel with
    | zero => cases h
    | succ fuel =>
      rw [Space.search, if_pos hwanted] at h
      cases h
      rfl
  | step hmoves _ hbefore hrest ih =>
    rename_i stack path s before after move _
    obtain ⟨hfresh, hlater⟩ := List.forall_mem_cons.mp hpath
    cases fuel with
    | zero => cases h
    | succ fuel =>
      rw [Space.search, if_neg hfresh, hmoves] at h
      split at h
      · cases h
        rfl
      · have hstack' : ∀ k ∈ space.key s :: stack, k ∈ space.key s :: visited := fun k hk =>
          List.mem_cons.mpr ((List.mem_cons.mp hk).imp_right (hstack k))
        refine each_finds (P := fun k => ∃ other ∈ before, ∃ t,
          space.Walk (space.key s :: stack) other.2 t ∧ space.key t = k)
          (fun other hother seen seen' hsub hfound => ?_)
          (fun seen seen' result hmarked hfound => ?_) h
        · have hmarked := search_marks hfound
          refine ⟨hmarked.keeps, fun k hk => (hmarked.news k hk).imp_right ?_⟩
          rintro ⟨t, hwalk, hkey⟩
          exact ⟨other, hother, t, hwalk.mono fun k hk => hsub k (hstack' k hk), hkey⟩
        · refine ih (fun k hk => hmarked.keeps k (hstack' k hk)) (fun k hk hin => ?_) hfound
          rcases hmarked.news k hin with hold | ⟨other, hother, t, hwalk, rfl⟩
          · rcases List.mem_cons.mp hold with rfl | hold
            · exact hrest.fresh _ hk List.mem_cons_self
            · exact hlater k hk hold
          · exact hbefore other hother t hwalk hk

end Search

end DepthFirst
