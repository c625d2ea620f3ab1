import UvrrCore.Slab

/-!
# Whose turn a view is

`Configuration.primary` rotates over the voters. A non-stop reconfiguration names its target by
another rotation: the least later view that selects the leader's position among all members
(`nextViewSelecting`). Members without a vote shift the two against each other. The leader keeps
its turn exactly when the shift over the rounds passed comes to whole rounds of the voters, and
the view named lies within one such round (`Configuration.KeepsTurn`).

The view named is exact to the end of the views, and machine words compute it without leaving the
word on the way (`nextViewSelecting_exact`).
-/

namespace UvrrCore

/-! ### Rotations -/

/-- The round of a rotation that brings a position up first after a number. -/
def roundAfter (number index members : Nat) : Nat := (number + members - index) / members

/-- The turn that round brings lies above the number, and one round earlier it does not. -/
theorem roundAfter_bounds (number : Nat) {index members : Nat} (h : index < members) :
    number < roundAfter number index members * members + index ∧
      roundAfter number index members * members + index ≤ number + members := by
  have hdivision := Nat.div_add_mod (number + members - index) members
  have hrest := Nat.mod_lt (number + members - index) (show 0 < members by omega)
  have hcomm : roundAfter number index members * members =
      members * ((number + members - index) / members) := Nat.mul_comm _ _
  omega

/-- Of the turns of a position only one is the first after a number. -/
theorem roundAfter_unique {number index members : Nat} (round : Nat) (h : index < members)
    (habove : number < round * members + index)
    (hnear : round * members + index ≤ number + members) :
    round = roundAfter number index members := by
  obtain ⟨habove', hnear'⟩ := roundAfter_bounds number h
  generalize roundAfter number index members = round' at habove' hnear'
  rcases Nat.lt_trichotomy round round' with hlt | heq | hlt
  · have := Nat.mul_le_mul_right members (show round + 1 ≤ round' from hlt)
    rw [Nat.succ_mul] at this
    omega
  · exact heq
  · have := Nat.mul_le_mul_right members (show round' + 1 ≤ round from hlt)
    rw [Nat.succ_mul] at this
    omega

/-- The view named is the turn of that round, when it is a view. -/
theorem nextViewSelecting_eq (current : Nat) {index members : Nat} (h : index < members) :
    nextViewSelecting current index members =
      if roundAfter current index members * members + index < u32Bound then
        some (roundAfter current index members * members + index)
      else none := by
  have hdivision := Nat.div_add_mod' (current + 1) members
  have hrest := Nat.mod_lt (current + 1) (show 0 < members by omega)
  -- the turn lies in the round of the floor, or in the next one
  have hturn : current + 1 + (if (current + 1) % members ≤ index then
        index - (current + 1) % members
      else members - ((current + 1) % members - index)) =
        roundAfter current index members * members + index := by
    by_cases hle : (current + 1) % members ≤ index
    · rw [if_pos hle, ← roundAfter_unique ((current + 1) / members) h]
      all_goals omega
    · have hround := Nat.add_one_mul ((current + 1) / members) members
      rw [if_neg hle, ← roundAfter_unique ((current + 1) / members + 1) h]
      all_goals omega
  unfold nextViewSelecting View.next
  rw [if_neg (by omega)]
  by_cases hfloor : current + 1 < u32Bound
  · simp only [if_pos hfloor, hturn]
  · rw [if_neg hfloor, if_neg (by omega)]

theorem nextViewSelecting_eq_some {current index members view : Nat}
    (h : nextViewSelecting current index members = some view) :
    index < members ∧ view = roundAfter current index members * members + index := by
  by_cases hindex : index < members
  · rw [nextViewSelecting_eq current hindex] at h
    split at h
    · exact ⟨hindex, (Option.some.inj h).symm⟩
    · cases h
  · unfold nextViewSelecting at h
    rw [if_pos (by omega)] at h
    cases h

/-- A sum leaves its last term on division exactly when the rest divides. -/
theorem add_mod_eq_right_iff {number place round : Nat} (hplace : place < round) :
    (number + place) % round = place ↔ round ∣ number := by
  constructor
  · intro h
    have hdivision := Nat.div_add_mod (number + place) round
    rw [h] at hdivision
    exact ⟨_, (Nat.add_right_cancel hdivision).symm⟩
  · rintro ⟨rounds, rfl⟩
    rw [Nat.mul_add_mod, Nat.mod_eq_of_lt hplace]

/-- **The view named is the least one of its turn**, up to the last view there is. -/
theorem nextViewSelecting_eq_some_iff {current index members view : Nat} :
    nextViewSelecting current index members = some view ↔ members ≠ 0 ∧
      IsLeast {v | current < v ∧ v < u32Bound ∧ v % members = index} view := by
  constructor
  · intro h
    have hindex := (nextViewSelecting_eq_some h).1
    obtain ⟨habove, hnear⟩ := roundAfter_bounds current hindex
    rw [nextViewSelecting_eq current hindex] at h
    generalize roundAfter current index members = round at h habove hnear
    split at h
    · rename_i hview
      obtain rfl := Option.some.inj h
      refine ⟨by omega, ⟨habove, hview, ?_⟩, fun other hother => ?_⟩
      · rw [Nat.mul_add_mod', Nat.mod_eq_of_lt hindex]
      · obtain ⟨hlow, -, hturn⟩ := hother
        by_contra hlt
        -- another turn below this one is a round below it
        have hdivision := Nat.div_add_mod' other members
        rw [hturn] at hdivision
        have hround : other / members < round := by
          by_contra hge
          have := Nat.mul_le_mul_right members (Nat.not_lt.mp hge)
          omega
        have := Nat.mul_le_mul_right members (show other / members + 1 ≤ round from hround)
        rw [Nat.add_one_mul] at this
        omega
    · cases h
  · rintro ⟨hmembers, ⟨habove, hview, hturn⟩, hleast⟩
    have hindex : index < members := hturn ▸ Nat.mod_lt view (by omega)
    obtain ⟨habove', hnear'⟩ := roundAfter_bounds current hindex
    have hle : roundAfter current index members * members + index ≤ view := by
      by_contra hfar
      have hdivision := Nat.div_add_mod' view members
      rw [hturn] at hdivision
      have hround : view / members = roundAfter current index members :=
        roundAfter_unique _ hindex (by omega) (by omega)
      rw [← hround] at hfar
      omega
    have hfirst : view ≤ roundAfter current index members * members + index :=
      hleast ⟨habove', by omega, by rw [Nat.mul_add_mod', Nat.mod_eq_of_lt hindex]⟩
    rw [nextViewSelecting_eq current hindex, if_pos (by omega), Nat.le_antisymm hle hfirst]

theorem nextViewSelecting_eq_none_iff {current index members : Nat} :
    nextViewSelecting current index members = none ↔ members ≤ index ∨
      ¬∃ v, current < v ∧ v < u32Bound ∧ v % members = index := by
  constructor
  · intro h
    by_contra hneither
    rw [not_or, not_not, Nat.not_le] at hneither
    obtain ⟨hindex, hturns⟩ := hneither
    -- the views of that turn have a least one
    have hleast := nextViewSelecting_eq_some_iff.mpr ⟨by omega, Nat.find_spec hturns,
      fun other hother => Nat.find_min' hturns hother⟩
    rw [h] at hleast
    cases hleast
  · rintro hnone
    cases hview : nextViewSelecting current index members with
    | none => rfl
    | some view =>
      obtain ⟨hmembers, hturn, -⟩ := nextViewSelecting_eq_some_iff.mp hview
      rcases hnone with hindex | hnone
      · have := hturn.2.2 ▸ Nat.mod_lt view (show 0 < members by omega)
        omega
      · exact absurd ⟨view, hturn⟩ hnone

/-! ### Machine words -/

/-- A difference that traps below zero. -/
def trapSub (a b : UInt32) : Option UInt32 := if b ≤ a then some (a - b) else none

/-- A remainder that traps on zero. -/
def trapRem (a b : UInt32) : Option UInt32 := if b = 0 then none else some (a % b)

/-- The checked sum: no sum is an answer of its own. -/
def checkedAdd (a b : UInt32) : Option UInt32 :=
  if a.toNat + b.toNat < u32Bound then some (a + b) else none

/-- The distance from a residue up to the position, round the end. -/
def gapWord (residue index members : UInt32) : Option UInt32 :=
  if residue ≤ index then trapSub index residue
  else do
    let past ← trapSub residue index
    trapSub members past

/-- `nextViewSelecting` on machine words, with every operation but the checked sums trapping where
it leaves the word: `none` is a trap. -/
def nextViewSelectingWord (current index members : UInt32) : Option (Option UInt32) :=
  if members = 0 ∨ members ≤ index then some none
  else
    match checkedAdd current 1 with
    | none => some none
    | some floor => do
      let residue ← trapRem floor members
      let gap ← gapWord residue index members
      return checkedAdd floor gap

theorem trapSub_of_le {a b : UInt32} (h : b.toNat ≤ a.toNat) :
    ∃ c, trapSub a b = some c ∧ c.toNat = a.toNat - b.toNat :=
  ⟨a - b, if_pos (UInt32.le_iff_toNat_le.mpr h),
    UInt32.toNat_sub_of_le _ _ (UInt32.le_iff_toNat_le.mpr h)⟩

theorem checkedAdd_map (a b : UInt32) :
    (checkedAdd a b).map UInt32.toNat =
      if a.toNat + b.toNat < u32Bound then some (a.toNat + b.toNat) else none := by
  unfold checkedAdd
  split
  · rename_i hsum
    rw [Option.map_some, UInt32.toNat_add, Nat.mod_eq_of_lt hsum]
  · rfl

theorem gapWord_eq {residue members : UInt32} (index : UInt32)
    (hresidue : residue.toNat < members.toNat) :
    (gapWord residue index members).map UInt32.toNat =
      some (if residue.toNat ≤ index.toNat then index.toNat - residue.toNat
        else members.toNat - (residue.toNat - index.toNat)) := by
  unfold gapWord
  simp only [UInt32.le_iff_toNat_le]
  by_cases hle : residue.toNat ≤ index.toNat
  · obtain ⟨gap, hgap, hvalue⟩ := trapSub_of_le hle
    rw [if_pos hle, if_pos hle, hgap, ← hvalue]
    rfl
  · obtain ⟨past, hpast, hvalue⟩ := trapSub_of_le (Nat.le_of_not_le hle)
    obtain ⟨gap, hgap, hvalue'⟩ := trapSub_of_le (show past.toNat ≤ members.toNat by omega)
    rw [hvalue] at hvalue'
    rw [if_neg hle, if_neg hle, hpast, Option.bind_eq_bind, Option.bind_some, hgap, ← hvalue']
    rfl

/-- **No operation leaves the word**, and the words compute the view. -/
theorem nextViewSelectingWord_eq (current index members : UInt32) :
    (nextViewSelectingWord current index members).map (Option.map UInt32.toNat) =
      some (nextViewSelecting current.toNat index.toNat members.toNat) := by
  have hzero : members = 0 ↔ members.toNat = 0 := by
    rw [← UInt32.toNat_inj]
    rfl
  unfold nextViewSelectingWord nextViewSelecting
  simp only [hzero, UInt32.le_iff_toNat_le]
  by_cases hnone : members.toNat = 0 ∨ members.toNat ≤ index.toNat
  · rw [if_pos hnone, if_pos hnone]
    rfl
  · rw [if_neg hnone, if_neg hnone]
    rw [not_or, Nat.not_le] at hnone
    have hfloor := checkedAdd_map current 1
    have hone : current.toNat + (1 : UInt32).toNat = current.toNat + 1 := rfl
    rw [hone] at hfloor
    unfold View.next
    cases hnext : checkedAdd current 1 with
    | none =>
      rw [hnext] at hfloor
      split at hfloor
      · cases hfloor
      · rename_i hlast
        rw [if_neg hlast]
        rfl
    | some floor =>
      rw [hnext] at hfloor
      split at hfloor
      · rename_i hsum
        rw [if_pos hsum, ← Option.some.inj hfloor]
        have hrest := Nat.mod_lt floor.toNat (Nat.pos_of_ne_zero hnone.1)
        have hresidue : trapRem floor members = some (floor % members) :=
          if_neg (mt hzero.mp hnone.1)
        rw [← UInt32.toNat_mod] at hrest
        have hgap := gapWord_eq index hrest
        obtain ⟨gap, hword, hvalue⟩ := Option.map_eq_some_iff.mp hgap
        simp only [hresidue, Option.bind_eq_bind, Option.bind_some, hword]
        rw [← UInt32.toNat_mod, ← hvalue]
        exact congrArg some (checkedAdd_map floor gap)
      · cases hfloor

/-- **The next view is exact to the end of the views**, for every current view, position and
number of members: the least later view of that turn, none exactly when there is none or no such
position, and no operation on the way leaves the word. -/
theorem nextViewSelecting_exact (current index members : UInt32) :
    (∀ view, nextViewSelecting current.toNat index.toNat members.toNat = some view ↔
      members.toNat ≠ 0 ∧ IsLeast
        {v | current.toNat < v ∧ v < u32Bound ∧ v % members.toNat = index.toNat} view) ∧
    (nextViewSelecting current.toNat index.toNat members.toNat = none ↔
      members.toNat ≤ index.toNat ∨
        ¬∃ v, current.toNat < v ∧ v < u32Bound ∧ v % members.toNat = index.toNat) ∧
    (nextViewSelectingWord current index members).map (Option.map UInt32.toNat) =
      some (nextViewSelecting current.toNat index.toNat members.toNat) :=
  ⟨fun _ => nextViewSelecting_eq_some_iff, nextViewSelecting_eq_none_iff,
    nextViewSelectingWord_eq current index members⟩

/-- Among the numbers above a bound the least of a residue is the one within a round of it. -/
theorem isLeast_residue_iff {current residue round number : Nat} (hresidue : residue < round)
    (habove : current < number) :
    IsLeast {n | current < n ∧ n % round = residue} number ↔
      number % round = residue ∧ number ≤ current + round := by
  constructor
  · rintro ⟨⟨-, hturn⟩, hleast⟩
    refine ⟨hturn, ?_⟩
    by_contra hfar
    have hearlier : number - round ∈ {n | current < n ∧ n % round = residue} := by
      refine ⟨by omega, ?_⟩
      rw [← Nat.mod_eq_sub_mod (by omega)]
      exact hturn
    have := hleast hearlier
    omega
  · rintro ⟨hturn, hnear⟩
    refine ⟨⟨habove, hturn⟩, fun other hother => ?_⟩
    obtain ⟨hlow, hsame⟩ := hother
    by_contra hlt
    -- two numbers of one residue lie a round apart
    have hfirst := Nat.div_add_mod number round
    have hsecond := Nat.div_add_mod other round
    rw [hturn] at hfirst
    rw [hsame] at hsecond
    have hrounds : other / round < number / round := by
      by_contra hge
      have := Nat.mul_le_mul_left round (Nat.le_of_not_lt hge)
      omega
    have := Nat.mul_le_mul_left round (show other / round + 1 ≤ number / round from hrounds)
    rw [Nat.mul_add] at this
    omega

namespace Configuration

/-! ### Members and voters -/

/-- The members without a vote among the first of the order. -/
def silent (c : Configuration) (count : Nat) : Nat :=
  ((c.order.take count).filter fun member => member.weight == 0).length

/-- **The turn of a position among the members is its turn among the voters**, first after a
view. -/
structure KeepsTurn (c : Configuration) (view index : Nat) : Prop where
  votes : ∃ member, c.order[index]? = some member ∧ member.weight ≠ 0
  shift : c.voters.length ∣
    roundAfter view index c.len * c.silent c.len + c.silent index
  near : roundAfter view index c.len * c.len + index ≤ view + c.voters.length

theorem voters_add_silent (c : Configuration) : c.voters.length + c.silent c.len = c.len := by
  unfold voters silent len
  rw [List.take_length, List.length_map, Nat.add_comm]
  have hsplit := List.length_eq_length_filter_add (l := c.order) fun member => member.weight == 0
  rw [hsplit]
  rfl

/-- A voter's place among the voters is its place among the members less the silent ones before
it. -/
theorem voters_getElem? {c : Configuration} {index : Nat} {member : Member}
    (hmember : c.order[index]? = some member) (hvotes : member.weight ≠ 0) :
    ∃ place, place + c.silent index = index ∧ c.voters[place]? = some member.node := by
  unfold voters silent
  generalize c.order = order at hmember
  induction order generalizing index with
  | nil => cases hmember
  | cons first rest ih =>
    cases index with
    | zero =>
      cases hmember
      refine ⟨0, rfl, ?_⟩
      rw [List.filter_cons_of_pos (by simpa using hvotes)]
      rfl
    | succ index =>
      obtain ⟨place, hplace, hvoter⟩ := ih (by simpa using hmember)
      by_cases hsilent : first.weight = 0
      · refine ⟨place, ?_, ?_⟩
        · rw [List.take_succ_cons, List.filter_cons_of_pos (by simpa using hsilent),
            List.length_cons]
          omega
        · rw [List.filter_cons_of_neg (by simpa using hsilent)]
          exact hvoter
      · refine ⟨place + 1, ?_, ?_⟩
        · rw [List.take_succ_cons, List.filter_cons_of_neg (by simpa using hsilent)]
          omega
        · rw [List.filter_cons_of_pos (by simpa using hsilent), List.map_cons,
            List.getElem?_cons_succ]
          exact hvoter

theorem voters_nodup {c : Configuration} (hnodup : c.nodes.Nodup) : c.voters.Nodup := by
  unfold voters
  exact List.Nodup.sublist (List.filter_sublist.map _) hnodup

/-- A voter is primary of the views of its residue. -/
theorem primary_eq_some_iff {c : Configuration} (hnodup : c.nodes.Nodup) {place node view : Nat}
    (hplace : c.voters[place]? = some node) :
    c.primary view = some node ↔ view % c.voters.length = place := by
  obtain ⟨hlt, hnode⟩ := List.getElem?_eq_some_iff.mp hplace
  unfold primary
  rw [if_neg (by omega)]
  constructor
  · intro hprimary
    obtain ⟨hlt', hnode'⟩ := List.getElem?_eq_some_iff.mp hprimary
    exact (List.Nodup.getElem_inj_iff (voters_nodup hnodup)).mp (hnode'.trans hnode.symm)
  · intro hturn
    rw [hturn]
    exact hplace

/-- A member without a vote is primary of no view. -/
theorem primary_ne_of_silent {c : Configuration} (hnodup : c.nodes.Nodup) {index : Nat}
    {member : Member} (hmember : c.order[index]? = some member) (hsilent : member.weight = 0)
    (view : Nat) : c.primary view ≠ some member.node := by
  unfold primary
  split
  · exact fun h => by cases h
  · intro hprimary
    obtain ⟨voter, hvoter, hnode⟩ := List.mem_map.mp (List.mem_of_getElem? hprimary)
    obtain ⟨hvoter, hvotes⟩ := List.mem_filter.mp hvoter
    have hsame := weightAt_of_mem hnodup hvoter
    rw [hnode, weightAt_of_mem hnodup (List.mem_of_getElem? hmember), hsilent] at hsame
    simp [← hsame] at hvotes

/-- **When the member rotation names the next view of a leader.** -/
theorem isLeast_primary_iff {c : Configuration} (hnodup : c.nodes.Nodup) {index : Nat}
    {member : Member} (hmember : c.order[index]? = some member) (view : Nat) :
    IsLeast {v | view < v ∧ c.primary v = some member.node}
        (roundAfter view index c.len * c.len + index) ↔ c.KeepsTurn view index := by
  have hindex : index < c.len := (List.getElem?_eq_some_iff.mp hmember).1
  have habove := (roundAfter_bounds view hindex).1
  by_cases hvotes : member.weight = 0
  · constructor
    · rintro ⟨⟨-, hprimary⟩, -⟩
      exact absurd hprimary (primary_ne_of_silent hnodup hmember hvotes _)
    · rintro ⟨⟨voter, hvoter, hvotes'⟩, -, -⟩
      rw [hmember] at hvoter
      cases hvoter
      exact absurd hvotes hvotes'
  · obtain ⟨place, hplace, hvoter⟩ := voters_getElem? hmember hvotes
    have hlt : place < c.voters.length := (List.getElem?_eq_some_iff.mp hvoter).1
    have hset : {v | view < v ∧ c.primary v = some member.node} =
        {v | view < v ∧ v % c.voters.length = place} := by
      ext v
      exact and_congr_right fun _ => primary_eq_some_iff hnodup hvoter
    have hturn : (roundAfter view index c.len * c.len + index) % c.voters.length = place ↔
        c.voters.length ∣ roundAfter view index c.len * c.silent c.len + c.silent index := by
      have hlen := c.voters_add_silent
      have hsum : roundAfter view index c.len * c.len + index =
          c.voters.length * roundAfter view index c.len +
            ((roundAfter view index c.len * c.silent c.len + c.silent index) + place) := by
        generalize roundAfter view index c.len = round
        have hrounds : round * c.len = round * c.voters.length + round * c.silent c.len := by
          rw [← Nat.mul_add, hlen]
        have hcomm : round * c.voters.length = c.voters.length * round := Nat.mul_comm _ _
        omega
      rw [hsum, Nat.mul_add_mod]
      exact add_mod_eq_right_iff hlt
    rw [hset, isLeast_residue_iff hlt habove, hturn]
    constructor
    · rintro ⟨hshift, hnear⟩
      exact ⟨⟨member, hmember, hvotes⟩, hshift, hnear⟩
    · intro h
      exact ⟨h.shift, h.near⟩

/-- Where every member votes the two rotations are one. -/
theorem keepsTurn_of_votes {c : Configuration} (h : ∀ member ∈ c.order, member.weight ≠ 0)
    {index : Nat} (hindex : index < c.len) (view : Nat) : c.KeepsTurn view index := by
  have hsilent : ∀ count, c.silent count = 0 := by
    intro count
    rw [silent, List.length_eq_zero_iff, List.filter_eq_nil_iff]
    intro member hmem
    simpa using h member (List.mem_of_mem_take hmem)
  have hlen := c.voters_add_silent
  rw [hsilent, Nat.add_zero] at hlen
  refine ⟨⟨c.order[index], List.getElem?_eq_getElem hindex, h _ (List.getElem_mem hindex)⟩, ?_, ?_⟩
  · rw [hsilent, hsilent, Nat.mul_zero]
    exact Nat.dvd_zero _
  · rw [hlen]
    exact (roundAfter_bounds view hindex).2

end Configuration

namespace Replica

variable {J : Type} [Journal J]

/-! ### The target of a non-stop reconfiguration -/

theorem reconfigureGates_extend {r : Replica J} {op : SystemOperation} {slot : Nat}
    {table : EraTable} (h : r.reconfigureGates op slot = .ok table) :
    r.progress.config.extend op slot = .ok table := by
  unfold reconfigureGates at h
  dsimp only at h
  split at h
  · cases h
  · obtain ⟨outstanding, -, h⟩ := bind_eq_ok.mp h
    split at h
    · cases h
    · split at h
      · rename_i extended hextend
        obtain ⟨next, hnext, h⟩ := bind_eq_ok.mp h
        cases hnext
        split at h
        · cases h
        · split at h
          · cases h
          · split at h
            · cases h
            · rw [hextend, pure_eq_ok.mp h]
      · cases h

/-- What an accepted proposal with a pivot arms: the overlap towards the configuration its
operation yields. -/
theorem planReconfigure_arms {r : Replica J} {op : SystemOperation} {pivot : Pivot}
    {plan : PlannedTransition} (h : r.planReconfigure op (some pivot) = .ok plan) :
    ∃ next overlap, r.progress.config.extend op (r.progress.accepted + 1) = .ok next ∧
      r.armOverlap (r.progress.accepted + 1) pivot next.current = .ok overlap ∧
      plan.bookkeeping.planned = .set overlap := by
  obtain ⟨record, -, h⟩ := bind_eq_ok.mp h
  obtain ⟨slot, hslot, h⟩ := bind_eq_ok.mp h
  obtain ⟨next, hgates, h⟩ := bind_eq_ok.mp h
  obtain ⟨⟨recipients, planned⟩, hroute, h⟩ := bind_eq_ok.mp h
  have hslot' : slot = r.progress.accepted + 1 := nextFreeSlot_ok hslot
  have hextend : r.progress.config.extend op slot = .ok next := reconfigureGates_extend hgates
  obtain ⟨overlap, harmed, rfl⟩ : ∃ overlap,
      r.armOverlap slot pivot next.current = .ok overlap ∧ planned = .set overlap := by
    unfold proposalRoute at hroute
    simp only at hroute
    split at hroute
    · cases hroute
    · split at hroute
      · cases hroute
      · rename_i overlap harmed
        cases hroute
        exact ⟨overlap, harmed, rfl⟩
  obtain ⟨candidate, -, h⟩ := bind_eq_ok.mp h
  cases pure_eq_ok.mp h
  rw [← hslot']
  exact ⟨next, overlap, hextend, harmed, rfl⟩

omit [Journal J] in
theorem armOverlap_target {r : Replica J} {slot : Nat} {pivot : Pivot} {next : EraRecord}
    {overlap : PlannedOverlap} (h : r.armOverlap slot pivot next = .ok overlap) :
    ∃ index member, next.config.order[index]? = some member ∧ member.node = r.own ∧
      (next.config.order.findIdx? fun member => member.node == r.own) = some index ∧
      overlap.target = { era := next.era
                         view := roundAfter r.progress.current.view index next.config.len *
                           next.config.len + index } := by
  unfold armOverlap at h
  simp only at h
  split at h
  · cases h
  · rename_i index hindex
    split at h
    · cases h
    · rename_i view hview
      cases h
      obtain ⟨member, hmember, hnode⟩ := Configuration.findIdx?_node hindex
      obtain ⟨-, rfl⟩ := nextViewSelecting_eq_some hview
      exact ⟨index, member, hmember, hnode, hindex, rfl⟩

/-- **When a non-stop reconfiguration keeps its leader**: exactly when the configuration it
yields keeps the turn of the leader's position. -/
theorem reconfigure_target_isLeast_iff {r : Replica J} (hr : r.Reached) {op : SystemOperation}
    {pivot : Pivot} {plan : PlannedTransition}
    (h : r.planReconfigure op (some pivot) = .ok plan) :
    ∃ next overlap index, r.progress.config.extend op (r.progress.accepted + 1) = .ok next ∧
      plan.bookkeeping.planned = .set overlap ∧ overlap.target.era = next.current.era ∧
      (next.current.config.order.findIdx? fun member => member.node == r.own) = some index ∧
      (IsLeast {view | r.progress.current.view < view ∧
            next.current.config.primary view = some r.own} overlap.target.view ↔
        next.current.config.KeepsTurn r.progress.current.view index) := by
  obtain ⟨next, overlap, hextend, harmed, hset⟩ := planReconfigure_arms h
  obtain ⟨index, member, hmember, hnode, hindex, htarget⟩ := armOverlap_target harmed
  refine ⟨next, overlap, index, hextend, hset, by rw [htarget], hindex, ?_⟩
  have htabled := hr.tabled.published
  obtain ⟨config, hconfig, -, -, rfl⟩ :=
    htabled.extend_eq (Nat.lt_succ_of_le r.progress.committed_le_accepted) hextend
  have hnodup := (htabled.reachable.apply hconfig).wellFormed.nodup
  rw [htarget, ← hnode]
  exact Configuration.isLeast_primary_iff hnodup hmember _

/-- The first primary of three nodes asks for an operation, with a pivot of nodes 2 and 3. -/
def askNonStop (r : Replica SegmentedLog) (op : SystemOperation) : Option PlannedTransition :=
  (r.planReconfigure op (some { qI := [1, 2], qII := [1, 3] })).toOption

/-- Promoting itself, the primary of view 0 names its next view among three voters. -/
theorem reconfigure_target_increment : ∃ (r : Replica SegmentedLog) (plan : PlannedTransition)
    (next : EraTable) (overlap : PlannedOverlap), r.Reached ∧
    r.progress.config.extend (.increment 1) (r.progress.accepted + 1) = .ok next ∧
    plan.bookkeeping.planned = .set overlap ∧
    IsLeast {view | r.progress.current.view < view ∧
      next.current.config.primary view = some r.own} overlap.target.view := by
  have hrun : (slabPrimary.bind fun r => (askNonStop r (.increment 1)).bind fun _ =>
      (r.progress.config.extend (.increment 1) (r.progress.accepted + 1)).toOption.map fun next =>
        next.current.config.order.all fun member => member.weight != 0) = some true := by
    decide +kernel
  obtain ⟨r, hr, hrun⟩ := Option.bind_eq_some_iff.mp hrun
  obtain ⟨plan, hplan, hrun⟩ := Option.bind_eq_some_iff.mp hrun
  obtain ⟨next', hnext', hvotes⟩ := Option.map_eq_some_iff.mp hrun
  obtain ⟨next, overlap, index, hextend, hset, -, hindex, hleast⟩ :=
    reconfigure_target_isLeast_iff (slabPrimary_reached hr) (toOption_eq_some hplan)
  refine ⟨r, plan, next, overlap, slabPrimary_reached hr, hextend, hset, hleast.mpr ?_⟩
  rw [toOption_eq_some hnext'] at hextend
  cases hextend
  refine Configuration.keepsTurn_of_votes (fun member hmem => ?_) ?_ _
  · simpa using List.all_eq_true.mp hvotes member hmem
  · obtain ⟨member, hmember, -⟩ := Configuration.findIdx?_node hindex
    exact (List.getElem?_eq_some_iff.mp hmember).1

/-- **A joiner in front of the order takes the leader's turn away.** The primary of view 0 names
view 1 for its own, and the configuration with the joiner gives view 1 to another voter. -/
theorem joiner_takes_turn : ∃ (r : Replica SegmentedLog) (plan : PlannedTransition)
    (next : EraTable) (overlap : PlannedOverlap), r.Reached ∧ r.isLeader = true ∧
    r.planReconfigure (.join 4 0) (some { qI := [1, 2], qII := [1, 3] }) = .ok plan ∧
    r.progress.config.extend (.join 4 0) (r.progress.accepted + 1) = .ok next ∧
    plan.bookkeeping.planned = .set overlap ∧
    ¬ IsLeast {view | r.progress.current.view < view ∧
      next.current.config.primary view = some r.own} overlap.target.view := by
  have hrun : (slabPrimary.bind fun r => (askNonStop r (.join 4 0)).bind fun plan =>
      (r.progress.config.extend (.join 4 0) (r.progress.accepted + 1)).toOption.map fun next =>
        r.isLeader && (plan.bookkeeping.planned.applyTo none).all fun overlap =>
          next.current.config.primary overlap.target.view != some r.own) = some true := by
    decide +kernel
  obtain ⟨r, hr, hrun⟩ := Option.bind_eq_some_iff.mp hrun
  obtain ⟨plan, hplan, hrun⟩ := Option.bind_eq_some_iff.mp hrun
  obtain ⟨next', hnext', hapart⟩ := Option.map_eq_some_iff.mp hrun
  obtain ⟨next, overlap, hextend, -, hset⟩ := planReconfigure_arms (toOption_eq_some hplan)
  rw [toOption_eq_some hnext'] at hextend
  cases hextend
  rw [hset] at hapart
  obtain ⟨hleader, hother⟩ := Bool.and_eq_true_iff.mp hapart
  refine ⟨r, plan, next', overlap, slabPrimary_reached hr, hleader, toOption_eq_some hplan,
    toOption_eq_some hnext', hset, fun hleast => ?_⟩
  rw [Update.applyTo, Option.all_some, hleast.1.2] at hother
  simp at hother

end Replica

end UvrrCore
