import UvrrCore.Operations
import UvrrCore.Reached

/-!
# How far a commit goes

The primary commits the longest prefix of its accepted tail that quorums vouch for
(`Replica.commitCascadeFrontier`), one segment at a time. By its purpose the frontier is the
greatest one below which every slot has a quorum among its acknowledgers and behind which no run
of system entries of one era is cut (`Replica.Admissible`).

The cascade falls short of it in two ways. A segment may begin with a client operation, which then
waits for the system entries of its era behind it. And a slot is judged by all its acknowledgers
at once, which are no quorum when one of them has left the configuration. `Replica.Unhindered` says
that neither is the case.
-/

namespace UvrrCore

namespace Replica

variable {J : Type} [Journal J]

/-! ### Segments -/

theorem follow_le {r : Replica J} {era left slot : Nat} :
    commitSegment.follow r era left slot ≤ left := by
  induction left generalizing slot with
  | zero => exact Nat.le_refl _
  | succ left ih =>
    rw [commitSegment.follow]
    split
    · exact Nat.zero_le _
    · split
      · have := @ih (slot + 1)
        omega
      · exact Nat.zero_le _

theorem commitSegment_bounds {r : Replica J} {next accepted : Nat} (h : next ≤ accepted) :
    next ≤ r.commitSegment next accepted ∧ r.commitSegment next accepted ≤ accepted := by
  unfold commitSegment
  split
  · exact ⟨Nat.le_refl _, h⟩
  · rename_i head _
    have := @follow_le _ _ r head.era (accepted - next) next
    omega

/-- A slot holds a system entry of an era. -/
def HoldsSystem (r : Replica J) (era slot : Nat) : Prop :=
  ∃ entry, Journal.get r.journal slot = some entry ∧ entry.payload.isSystem = true ∧
    entry.era = era

/-- The entries that follow are system entries of the era, and behind them no more of it does. -/
theorem follow_spec (r : Replica J) (era left slot : Nat) :
    (∀ s, slot < s → s ≤ slot + commitSegment.follow r era left slot → r.HoldsSystem era s) ∧
      (commitSegment.follow r era left slot < left →
        ¬ r.HoldsSystem era (slot + commitSegment.follow r era left slot + 1)) := by
  induction left generalizing slot with
  | zero =>
    rw [commitSegment.follow]
    exact ⟨fun s hlow hhigh => by omega, fun hlt => absurd hlt (Nat.lt_irrefl _)⟩
  | succ left ih =>
    rw [commitSegment.follow]
    split
    · rename_i hnone
      refine ⟨fun s hlow hhigh => by omega, fun _ h => ?_⟩
      obtain ⟨entry, hentry, -⟩ := h
      rw [Nat.add_zero, hnone] at hentry
      cases hentry
    · rename_i entry hentry
      split
      · rename_i hfollows
        obtain ⟨hall, hend⟩ := ih (slot + 1)
        refine ⟨fun s hlow hhigh => ?_, fun hlt => ?_⟩
        · by_cases hfirst : s = slot + 1
          · rw [hfirst]
            exact ⟨entry, hentry, hfollows.1, hfollows.2⟩
          · exact hall s (by omega) (by omega)
        · rw [show slot + (1 + commitSegment.follow r era left (slot + 1)) + 1 =
            slot + 1 + commitSegment.follow r era left (slot + 1) + 1 by omega]
          exact hend (by omega)
      · rename_i hapart
        refine ⟨fun s hlow hhigh => by omega, fun _ h => ?_⟩
        obtain ⟨other, hother, hsystem, hera⟩ := h
        rw [Nat.add_zero, hentry] at hother
        cases hother
        exact hapart ⟨hsystem, hera⟩

/-- **A segment**: what follows its head are system entries of the head's era, and the entry
behind it is none. -/
theorem commitSegment_spec {r : Replica J} {next accepted : Nat} {head : LogEntry}
    (hhead : Journal.get r.journal next = some head) (hle : next ≤ accepted) :
    (∀ s, next < s → s ≤ r.commitSegment next accepted → r.HoldsSystem head.era s) ∧
      (r.commitSegment next accepted < accepted →
        ¬ r.HoldsSystem head.era (r.commitSegment next accepted + 1)) := by
  have hsegment : r.commitSegment next accepted =
      next + commitSegment.follow r head.era (accepted - next) next := by
    unfold commitSegment
    rw [hhead]
  obtain ⟨hall, hend⟩ := r.follow_spec head.era (accepted - next) next
  rw [hsegment]
  exact ⟨hall, fun hlt => hend (by omega)⟩

theorem commitSegment_unreadable {r : Replica J} {next : Nat} (accepted : Nat)
    (h : Journal.get r.journal next = none) : r.commitSegment next accepted = next := by
  unfold commitSegment
  rw [h]

/-! ### The purpose of the cascade -/

/-- The acknowledgers of a slot contain a commit quorum of the newest committed configuration. -/
def Witnessed (r : Replica J) (vote : Option (Nat × Nat)) (slot : Nat) : Prop :=
  ∃ quorum, (∀ node ∈ quorum, node ∈ r.vouchers vote slot) ∧
    r.strategy.isQuorum .commit r.progress.config.current.config quorum = true

/-- A slot and the next accepted one hold system entries of one era: they commit together. -/
def Joined (r : Replica J) (slot : Nat) : Prop :=
  slot < r.progress.accepted ∧ ∃ era, r.HoldsSystem era slot ∧ r.HoldsSystem era (slot + 1)

/-- **A frontier a commit may go to.** -/
structure Admissible (r : Replica J) (vote : Option (Nat × Nat)) (frontier : Nat) : Prop where
  above : r.progress.committed ≤ frontier
  accepted : frontier ≤ r.progress.accepted
  witnessed : ∀ slot, r.progress.committed < slot → slot ≤ frontier → r.Witnessed vote slot
  whole : r.progress.committed < frontier → ¬ r.Joined frontier

/-- **Nothing hinders the cascade**: below a frontier it may go to the acknowledgers of each slot
are a quorum as they are recorded, and behind a client operation there the segment it begins is
witnessed as well. -/
structure Unhindered (r : Replica J) (vote : Option (Nat × Nat)) : Prop where
  recorded : ∀ frontier slot, r.Admissible vote frontier → r.progress.committed < slot →
    slot ≤ frontier → r.slotHolds vote slot = true
  parted : ∀ slot entry, r.Admissible vote slot → r.progress.committed < slot →
    Journal.get r.journal slot = some entry → entry.payload.isSystem = false →
    ∀ other, slot < other → other ≤ r.commitSegment slot r.progress.accepted →
      r.Witnessed vote other

omit [Journal J] in
theorem witnessed_of_slotHolds {r : Replica J} {vote : Option (Nat × Nat)} {slot : Nat}
    (h : r.slotHolds vote slot = true) : r.Witnessed vote slot :=
  ⟨r.vouchers vote slot, fun _ hmem => hmem, h⟩

theorem admissible_committed (r : Replica J) (vote : Option (Nat × Nat)) :
    r.Admissible vote r.progress.committed :=
  ⟨Nat.le_refl _, r.progress.committed_le_accepted, fun slot hlow hhigh => by omega,
    fun hlt => absurd hlt (Nat.lt_irrefl _)⟩

/-- Behind a segment no run of system entries is cut. -/
theorem not_joined_commitSegment {r : Replica J} {next : Nat} (hle : next ≤ r.progress.accepted) :
    ¬ r.Joined (r.commitSegment next r.progress.accepted) := by
  rintro ⟨hlt, era, hlast, hbehind⟩
  cases hhead : Journal.get r.journal next with
  | none =>
    rw [commitSegment_unreadable _ hhead] at hlast
    obtain ⟨entry, hentry, -⟩ := hlast
    rw [hhead] at hentry
    cases hentry
  | some head =>
    obtain ⟨hall, hend⟩ := commitSegment_spec hhead hle
    have hbounds := commitSegment_bounds (r := r) hle
    have hera : era = head.era := by
      obtain ⟨entry, hentry, -, hera⟩ := hlast
      rcases Nat.lt_or_ge next (r.commitSegment next r.progress.accepted) with hlater | hfirst
      · obtain ⟨other, hother, -, hother'⟩ := hall _ hlater (Nat.le_refl _)
        rw [hentry] at hother
        cases hother
        rw [← hera, hother']
      · rw [show r.commitSegment next r.progress.accepted = next by omega, hhead] at hentry
        cases hentry
        exact hera.symm
    rw [hera] at hbehind
    exact hend hlt hbehind

/-! ### The cascade -/

/-- One round of the cascade, once there is a next slot. -/
theorem cascade_succ {r : Replica J} (vote : Option (Nat × Nat)) (rounds : Nat) {committed : Nat}
    (h : committed < r.progress.accepted) :
    ((∀ slot, committed < slot → slot ≤ r.commitSegment (committed + 1) r.progress.accepted →
          r.slotHolds vote slot = true) ∧
        r.cascade vote (rounds + 1) committed =
          r.cascade vote rounds (r.commitSegment (committed + 1) r.progress.accepted)) ∨
      ((∃ slot, committed < slot ∧ slot ≤ r.commitSegment (committed + 1) r.progress.accepted ∧
          r.slotHolds vote slot = false) ∧
        r.cascade vote (rounds + 1) committed = committed) := by
  rw [cascade]
  dsimp only
  rw [if_neg (by omega)]
  split
  · rename_i hall
    refine .inl ⟨fun slot hlow hhigh => ?_, rfl⟩
    rw [List.all_eq_true] at hall
    refine hall slot (List.mem_map.mpr ⟨slot - (committed + 1), ?_, by omega⟩)
    rw [List.mem_range]
    omega
  · rename_i hsome
    refine .inr ⟨?_, rfl⟩
    rw [Bool.not_eq_true, List.all_eq_false] at hsome
    obtain ⟨slot, hmem, hfails⟩ := hsome
    obtain ⟨offset, hoffset, rfl⟩ := List.mem_map.mp hmem
    rw [List.mem_range] at hoffset
    exact ⟨committed + 1 + offset, by omega, by omega, by simpa using hfails⟩

theorem cascade_done {r : Replica J} (vote : Option (Nat × Nat)) (rounds : Nat) {committed : Nat}
    (h : r.progress.accepted ≤ committed) : r.cascade vote rounds committed = committed := by
  cases rounds with
  | zero => rfl
  | succ rounds =>
    rw [cascade]
    dsimp only
    rw [if_pos (by omega)]

/-- **The cascade** stops where a slot lacks its quorum: every slot it passes has one. -/
theorem cascade_spec {r : Replica J} (vote : Option (Nat × Nat)) (rounds : Nat)
    {committed : Nat} (h : committed ≤ r.progress.accepted) :
    committed ≤ r.cascade vote rounds committed ∧
      r.cascade vote rounds committed ≤ r.progress.accepted ∧
      ∀ slot, committed < slot → slot ≤ r.cascade vote rounds committed →
        r.slotHolds vote slot = true := by
  induction rounds generalizing committed with
  | zero => exact ⟨Nat.le_refl _, h, fun slot hlow hhigh => by rw [cascade] at hhigh; omega⟩
  | succ rounds ih =>
    rcases Nat.lt_or_ge committed r.progress.accepted with hmore | hdone
    · obtain ⟨hlow, hhigh⟩ := commitSegment_bounds (r := r)
        (show committed + 1 ≤ r.progress.accepted from hmore)
      rcases cascade_succ vote rounds hmore with ⟨hall, heq⟩ | ⟨-, heq⟩
      · obtain ⟨hle, hbound, hrest⟩ := ih hhigh
        rw [heq]
        refine ⟨by omega, hbound, fun slot hslot hslot' => ?_⟩
        by_cases hin : slot ≤ r.commitSegment (committed + 1) r.progress.accepted
        · exact hall slot hslot hin
        · exact hrest slot (by omega) hslot'
      · rw [heq]
        exact ⟨Nat.le_refl _, h, fun slot hlow hhigh => by omega⟩
    · rw [cascade_done vote _ hdone]
      exact ⟨Nat.le_refl _, h, fun slot hlow hhigh => by omega⟩

/-- The cascade goes to frontiers a commit may go to. -/
theorem cascade_admissible {r : Replica J} {vote : Option (Nat × Nat)} (rounds : Nat)
    {committed : Nat} (h : r.Admissible vote committed) :
    r.Admissible vote (r.cascade vote rounds committed) := by
  induction rounds generalizing committed with
  | zero => exact h
  | succ rounds ih =>
    rcases Nat.lt_or_ge committed r.progress.accepted with hmore | hdone
    · rcases cascade_succ vote rounds hmore with ⟨hall, heq⟩ | ⟨-, heq⟩
      · obtain ⟨hlow, hhigh⟩ := commitSegment_bounds (r := r)
          (show committed + 1 ≤ r.progress.accepted from hmore)
        have habove := h.above
        rw [heq]
        refine ih ⟨by omega, hhigh, fun slot hslot hslot' => ?_, fun _ =>
          not_joined_commitSegment hmore⟩
        by_cases hin : slot ≤ committed
        · exact h.witnessed slot hslot hin
        · exact witnessed_of_slotHolds (hall slot (by omega) hslot')
      · rw [heq]
        exact h
    · rw [cascade_done vote _ hdone]
      exact h

/-- The cascade never stops inside the segment of a client operation. -/
theorem cascade_passes_segment {r : Replica J} {vote : Option (Nat × Nat)} {rounds committed : Nat}
    {slot : Nat} {entry : LogEntry} (hentry : Journal.get r.journal slot = some entry)
    (hclient : entry.payload.isSystem = false) (hlow : committed < slot)
    (hhigh : slot ≤ r.cascade vote rounds committed) :
    r.commitSegment slot r.progress.accepted ≤ r.cascade vote rounds committed := by
  induction rounds generalizing committed with
  | zero =>
    rw [cascade] at hhigh
    omega
  | succ rounds ih =>
    rcases Nat.lt_or_ge committed r.progress.accepted with hmore | hdone
    · rcases cascade_succ vote rounds hmore with ⟨hall, heq⟩ | ⟨-, heq⟩
      · rw [heq] at hhigh ⊢
        have hnext : committed + 1 ≤ r.progress.accepted := hmore
        by_cases hin : slot ≤ r.commitSegment (committed + 1) r.progress.accepted
        · -- a client operation follows nothing: it is the head of its segment
          have hhead : slot = committed + 1 := by
            by_contra hlater
            cases hfirst : Journal.get r.journal (committed + 1) with
            | none =>
              rw [commitSegment_unreadable _ hfirst] at hin
              omega
            | some head =>
              obtain ⟨other, hother, hsystem, -⟩ :=
                (commitSegment_spec hfirst hnext).1 slot (by omega) hin
              rw [hentry] at hother
              cases hother
              rw [hclient] at hsystem
              cases hsystem
          rw [hhead]
          exact (cascade_spec vote rounds (commitSegment_bounds hnext).2).1
        · exact ih (by omega) hhigh
      · rw [heq] at hhigh
        omega
    · rw [cascade_done vote _ hdone] at hhigh
      omega

/-- Unhindered, the cascade gets to every frontier a commit may go to. -/
theorem Unhindered.le_cascade {r : Replica J} {vote : Option (Nat × Nat)} (h : r.Unhindered vote)
    {rounds committed frontier : Nat} (hcommitted : r.Admissible vote committed)
    (hrounds : r.progress.accepted ≤ committed + rounds) (hfrontier : r.Admissible vote frontier) :
    frontier ≤ r.cascade vote rounds committed := by
  induction rounds generalizing committed with
  | zero =>
    rw [cascade]
    exact hfrontier.accepted.trans hrounds
  | succ rounds ih =>
    rcases Nat.lt_or_ge committed frontier with hbelow | hdone
    · have hmore : committed < r.progress.accepted := by
        have := hfrontier.accepted
        omega
      have hnext : committed + 1 ≤ r.progress.accepted := hmore
      obtain ⟨hlow, hhigh⟩ := commitSegment_bounds (r := r) hnext
      have habove := hcommitted.above
      have hholds : ∀ slot, committed < slot →
          slot ≤ r.commitSegment (committed + 1) r.progress.accepted →
          r.slotHolds vote slot = true := by
        intro slot hslot hslot'
        rcases Nat.lt_or_ge frontier (r.commitSegment (committed + 1) r.progress.accepted)
          with hcut | hreach
        · -- the frontier lies inside the segment, so it is its head and a client operation
          cases hhead : Journal.get r.journal (committed + 1) with
          | none =>
            rw [commitSegment_unreadable _ hhead] at hcut
            omega
          | some head =>
            obtain ⟨hall, -⟩ := commitSegment_spec hhead hnext
            have hbehind := hall (frontier + 1) (by omega) hcut
            have hwhole := hfrontier.whole (by omega)
            have hfirst : frontier = committed + 1 := by
              by_contra hlater
              exact hwhole ⟨by omega, head.era, hall frontier (by omega) hcut.le, hbehind⟩
            have hclient : head.payload.isSystem = false := by
              cases hsystem : head.payload.isSystem with
              | false => rfl
              | true =>
                refine absurd ⟨by omega, head.era, ?_, hbehind⟩ hwhole
                rw [hfirst]
                exact ⟨head, hhead, hsystem, rfl⟩
            rw [← hfirst] at hhead
            have hparted := h.parted frontier head hfrontier (by omega) hhead hclient
            rw [hfirst] at hparted
            refine h.recorded (r.commitSegment (committed + 1) r.progress.accepted) slot
              ⟨by omega, hhigh, fun other hother hother' => ?_, fun _ =>
                not_joined_commitSegment hnext⟩ (by omega) hslot'
            by_cases hin : other ≤ frontier
            · exact hfrontier.witnessed other hother hin
            · exact hparted other (by omega) hother'
        · exact h.recorded frontier slot hfrontier (by omega) (hslot'.trans hreach)
      rcases cascade_succ vote rounds hmore with ⟨-, heq⟩ | ⟨⟨slot, hslot, hslot', hfails⟩, -⟩
      · rw [heq]
        refine ih ⟨by omega, hhigh, fun slot hslot hslot' => ?_, fun _ =>
          not_joined_commitSegment hnext⟩ (by omega)
        by_cases hin : slot ≤ committed
        · exact hcommitted.witnessed slot hslot hin
        · exact witnessed_of_slotHolds (hholds slot (by omega) hslot')
      · rw [hholds slot hslot hslot'] at hfails
        cases hfails
    · exact hdone.trans (cascade_spec vote _ hcommitted.accepted).1

/-- **When the cascade advances exactly to what quorums witness.** -/
theorem commitCascadeFrontier_isGreatest_iff (r : Replica J) (vote : Option (Nat × Nat)) :
    IsGreatest {frontier | r.Admissible vote frontier} (r.commitCascadeFrontier vote) ↔
      r.Unhindered vote := by
  have hstart := r.admissible_committed vote
  constructor
  · rintro ⟨-, hgreatest⟩
    refine ⟨fun frontier slot hfrontier hlow hhigh => ?_,
      fun slot entry hslot hlow hentry hclient other hother hother' => ?_⟩
    · exact (cascade_spec vote _ hstart.accepted).2.2 slot hlow
        (hhigh.trans (hgreatest hfrontier))
    · have hpassed := cascade_passes_segment hentry hclient hlow (hgreatest hslot)
      exact (cascade_admissible _ hstart).witnessed other (by omega) (hother'.trans hpassed)
  · intro h
    refine ⟨cascade_admissible _ hstart, fun frontier hfrontier => ?_⟩
    exact h.le_cascade hstart (by omega) hfrontier

/-! ### Acknowledgers that have left -/

omit [Journal J] in
/-- Under the weighted majority only an acknowledger outside the configuration, or one counted
twice, spoils a quorum among the acknowledgers. -/
theorem slotHolds_of_members {r : Replica J} {vote : Option (Nat × Nat)} {slot : Nat}
    (hmajority : r.strategy = weightedMajority) (hnodup : (r.vouchers vote slot).Nodup)
    (hmembers : ∀ node ∈ r.vouchers vote slot, node ∈ r.progress.config.current.config.nodes)
    (h : r.Witnessed vote slot) : r.slotHolds vote slot = true := by
  obtain ⟨quorum, hsub, hquorum⟩ := h
  unfold slotHolds
  rw [hmajority] at hquorum ⊢
  obtain ⟨weight, hweight, hle⟩ := weightedMajority_isQuorum.mp hquorum
  obtain ⟨all, hall⟩ := Option.isSome_iff_exists.mp
    (Configuration.weightOfSet_isSome hnodup hmembers)
  refine weightedMajority_isQuorum.mpr ⟨all, hall, hle.trans ?_⟩
  rw [(Configuration.weightOfSet_eq_sum hweight).2.2, (Configuration.weightOfSet_eq_sum hall).2.2]
  refine Finset.sum_le_sum_of_subset fun node hnode => ?_
  rw [List.mem_toFinset] at hnode ⊢
  exact hsub node hnode

/-- A primary with a client operation and, behind it, a system operation outstanding. -/
def mixedTail : Option (Replica SegmentedLog) :=
  (provision 1 [1, 2, 3] weightedMajority (SegmentedLog.withTailCapacity 4) .volatile
    { primaryTimeout := 0, viewChangeBudget := 1000 }).toOption.map fun r =>
      (((r.step { time := 1, event := .tick }).1.step
        { time := 2, event := .propose ⟨⟨0, 1⟩, []⟩ }).1.step
          { time := 3, event := .reconfigure (.increment 1) none }).1

theorem mixedTail_reached {r : Replica SegmentedLog} (h : mixedTail = some r) : r.Reached := by
  obtain ⟨fresh, hfresh, rfl⟩ := Option.map_eq_some_iff.mp h
  exact (((Reached.provision (toOption_eq_some hfresh)).step _).step _).step _

/-- **A client operation waits for the system entry behind it.** Node 2 acknowledges the client
operation at slot 3, which two of three nodes hold then, and the cascade stays at slot 2. -/
theorem cascade_merges_client : ∃ r : Replica SegmentedLog, r.Reached ∧ r.isLeader = true ∧
    r.commitCascadeFrontier (some (2, 3)) = 2 ∧ r.Admissible (some (2, 3)) 3 ∧
    ¬ IsGreatest {frontier | r.Admissible (some (2, 3)) frontier}
      (r.commitCascadeFrontier (some (2, 3))) := by
  have hrun : (mixedTail.map fun r => decide (r.isLeader = true ∧
      r.commitCascadeFrontier (some (2, 3)) = 2 ∧ r.progress.committed = 2 ∧
      r.progress.accepted = 4 ∧ r.slotHolds (some (2, 3)) 3 = true ∧
      ((Journal.get r.journal 3).map fun entry => entry.payload.isSystem) = some false)) =
      some true := by decide +kernel
  obtain ⟨r, hr, hrun⟩ := Option.map_eq_some_iff.mp hrun
  obtain ⟨hleader, hfrontier, hcommitted, haccepted, hholds, hclient⟩ := of_decide_eq_true hrun
  have hthird : r.Admissible (some (2, 3)) 3 := by
    refine ⟨by omega, by omega, fun slot hlow hhigh => ?_, fun _ hjoined => ?_⟩
    · rw [show slot = 3 by omega]
      exact witnessed_of_slotHolds hholds
    · obtain ⟨-, era, ⟨entry, hentry, hsystem, -⟩, -⟩ := hjoined
      rw [hentry, Option.map_some, hsystem] at hclient
      cases hclient
  refine ⟨r, mixedTail_reached hr, hleader, hfrontier, hthird, fun hgreatest => ?_⟩
  have hle := hgreatest.2 hthird
  omega

end Replica

end UvrrCore
