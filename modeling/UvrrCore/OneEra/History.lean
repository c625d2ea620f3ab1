import UvrrCore.Histories
import UvrrCore.OneEra.Safety

/-!
# One history

In the runs of which agreement is proved, the histories of all nodes at all times are initial
segments of each other: there is one history, and every node applied the operations of its first
entries. An operation is in it no more often than it was proposed, and behind everything that was
applied anywhere before it was proposed. So whatever deterministic service the operations are for,
the cluster serves its clients as one copy of it would.

## Main results

* `Cluster.one_history`: of two histories, at any two times, the shorter begins the longer.
* `Cluster.real_time`: what is proposed later is applied at a later slot.
* `Cluster.linearizable`: the run has one history that its clients cannot tell from a sequential one.
-/

namespace UvrrCore

open Viewstamped

/-- Of two lists over consecutive keys that agree wherever they share a key, the shorter begins the
longer. -/
theorem prefix_of_keys {α : Type} {key : α → Nat} {xs ys : List α} {start m n : Nat}
    (hxs : xs.map key = List.range' start m) (hys : ys.map key = List.range' start n)
    (hle : m ≤ n) (hagree : ∀ x ∈ xs, ∀ y ∈ ys, key x = key y → x = y) : xs <+: ys := by
  have hkey : ∀ {zs : List α} {k i : Nat} {z : α}, zs.map key = List.range' start k →
      zs[i]? = some z → key z = start + i := by
    intro zs k i z hzs hz
    have hlen : zs.length = k := by
      rw [← List.length_map (f := key), hzs, List.length_range']
    obtain ⟨hlt, -⟩ := List.getElem?_eq_some_iff.mp hz
    have hget := congrArg (·[i]?) hzs
    simp only [List.getElem?_map, hz, Option.map_some, List.getElem?_range' (hlen ▸ hlt),
      Option.some.injEq, Nat.one_mul] at hget
    exact hget
  have hxlen : xs.length = m := by
    rw [← List.length_map (f := key), hxs, List.length_range']
  have hylen : ys.length = n := by
    rw [← List.length_map (f := key), hys, List.length_range']
  refine List.prefix_iff_getElem?.mpr fun i hi => ?_
  have hx : xs[i]? = some xs[i] := List.getElem?_eq_getElem hi
  obtain ⟨y, hy⟩ : ∃ y, ys[i]? = some y := ⟨_, List.getElem?_eq_getElem (by omega)⟩
  rw [hy, ← hagree _ (List.mem_of_getElem? hx) _ (List.mem_of_getElem? hy)
    ((hkey hxs hx).trans (hkey hys hy).symm)]

namespace Genesis

variable {g : Genesis} {a a' : Ledger} {c : Cluster} {node : Nat} {entry entry' : LogEntry}

/-- The entry is chosen at its slot. -/
def Settled (g : Genesis) (a : Ledger) (entry : LogEntry) : Prop :=
  ∃ b s, entry.slot = s + 1 ∧ a.Chosen g.setting b s ∧ (a.hist b)[s]? = some entry

theorem Settled.mono (h : g.Settled a entry) (hgrows : Grows a a') : g.Settled a' entry := by
  obtain ⟨b, s, hslot, hchosen, hentry⟩ := h
  exact ⟨b, s, hslot, chosen_mono hgrows hchosen, getElem?_of_segment (hgrows.hist b) hentry⟩

/-- One entry is chosen at a slot. -/
theorem Settled.eq (hinv : Inv g.setting a) (h : g.Settled a entry) (h' : g.Settled a entry')
    (hslot : entry.slot = entry'.slot) : entry = entry' := by
  obtain ⟨b, s, heq, hchosen, hhist⟩ := h
  obtain ⟨b', s', heq', hchosen', hhist'⟩ := h'
  obtain rfl : s = s' := by omega
  obtain ⟨v, hv, hv'⟩ := hinv.chosen_agree hchosen hchosen'
  exact (Option.some.inj (hhist.symm.trans hv)).trans (Option.some.inj (hv'.symm.trans hhist'))

/-- What a step newly commits is chosen behind it. -/
theorem Stands.newly {c' : Cluster} (h : Stands g a c') :
    ∀ entry ∈ Cluster.newly node c c', g.Settled a entry := by
  intro entry hmem
  unfold Cluster.newly at hmem
  split at hmem
  · rename_i r r' hr hr'
    obtain ⟨slot, hslot, hget⟩ := List.mem_filterMap.mp hmem
    have hle : slot ≤ r'.progress.committed := by
      have := List.mem_range'_1.mp hslot
      omega
    obtain ⟨s, b, rfl, -, hchosen, hhist⟩ := (h.tracks node r' hr').committed h.inv hget hle
    exact ⟨b, s, LawfulJournal.get_slot hget, hchosen, hhist⟩
  · cases hmem

/-- **The histories of a run are chosen.** -/
theorem Stands.settles (h : Stands g a c) {events : List ClusterEvent}
    (hplain : ∀ event ∈ events, PlainEvent event) (hfits : Cluster.Along SuffixesFit c events) :
    ∃ a', Grows a a' ∧ Stands g a' (c.run events) ∧
      ∀ node, ∀ entry ∈ Cluster.history node c events, g.Settled a' entry := by
  induction events generalizing c a with
  | nil => exact ⟨a, Grows.refl a, h, fun node entry hmem => nomatch hmem⟩
  | cons event events ih =>
    obtain ⟨hfirst, hrest⟩ := hfits
    obtain ⟨a', hgrows, hnext⟩ := h.step (hplain event List.mem_cons_self) hfirst
    obtain ⟨a'', hgrows', hlast, hsettled⟩ :=
      ih hnext (fun later hmem => hplain later (List.mem_cons_of_mem _ hmem)) hrest
    refine ⟨a'', hgrows.trans hgrows', hlast, fun node entry hmem => ?_⟩
    rcases List.mem_append.mp hmem with hmem | hmem
    · exact (hnext.newly entry hmem).mono hgrows'
    · exact hsettled node entry hmem

end Genesis

namespace Cluster

variable {order : List Nat} {knobs : Nat → ViewChangeKnobs} {tailCapacity : Nat → Nat}

theorem history_silent {c : Cluster} (hnodes : ∀ node, c.nodes node = none) (node : Nat)
    (events : List ClusterEvent) : history node c events = [] := by
  induction events with
  | nil => rfl
  | cons event events ih =>
    rw [history, step_silent hnodes, ih, newly, hnodes]
    rfl

/-- One entry is at a slot of all histories of a run. -/
theorem history_eq {events : List ClusterEvent}
    (hplain : ∀ event ∈ events, Genesis.PlainEvent event)
    (hfits : Along Genesis.SuffixesFit (provisioned order knobs tailCapacity) events)
    {node node' : Nat} {entry entry' : LogEntry}
    (hentry : entry ∈ history node (provisioned order knobs tailCapacity) events)
    (hentry' : entry' ∈ history node' (provisioned order knobs tailCapacity) events)
    (hslot : entry.slot = entry'.slot) : entry = entry' := by
  cases hfolds : Replica.genesisTable order with
  | ok table =>
    obtain ⟨a, -, hstands, hsettled⟩ :=
      (Genesis.stands_provisioned { order := order, table := table, folds := hfolds } knobs
        tailCapacity).settles hplain hfits
    exact (hsettled node entry hentry).eq hstands.inv (hsettled node' entry' hentry') hslot
  | error error =>
    rw [history_silent (provisioned_silent hfolds)] at hentry
    cases hentry

/-- **One history.** Of the histories of two nodes, at any two times of the run, the one that
committed less begins the other. -/
theorem one_history {before after : List ClusterEvent}
    (hplain : ∀ event ∈ before ++ after, Genesis.PlainEvent event)
    (hfits : Along Genesis.SuffixesFit (provisioned order knobs tailCapacity) (before ++ after))
    {node node' : Nat} {r r' : Replica SegmentedLog}
    (hnode : ((provisioned order knobs tailCapacity).run before).nodes node = some r)
    (hnode' : ((provisioned order knobs tailCapacity).run (before ++ after)).nodes node' =
      some r') :
    (r.progress.committed ≤ r'.progress.committed →
      history node (provisioned order knobs tailCapacity) before <+:
        history node' (provisioned order knobs tailCapacity) (before ++ after)) ∧
    (r'.progress.committed ≤ r.progress.committed →
      history node' (provisioned order knobs tailCapacity) (before ++ after) <+:
        history node (provisioned order knobs tailCapacity) before) := by
  have hearly : ∀ entry ∈ history node (provisioned order knobs tailCapacity) before,
      entry ∈ history node (provisioned order knobs tailCapacity) (before ++ after) := by
    intro entry hmem
    rw [history_append]
    exact List.mem_append_left _ hmem
  exact ⟨fun hle => prefix_of_keys (history_slots hnode) (history_slots hnode')
      (Nat.sub_le_sub_right hle _) fun entry hentry entry' hentry' =>
        history_eq hplain hfits (hearly entry hentry) hentry',
    fun hle => prefix_of_keys (history_slots hnode') (history_slots hnode)
      (Nat.sub_le_sub_right hle _) fun entry hentry entry' hentry' =>
        history_eq hplain hfits hentry (hearly entry' hentry')⟩

/-- Node 1, whose own operation gave way, catches up with node 2. -/
theorem one_history_succeeded :
    ∃ r r',
      ((provisioned [1, 2, 3] (fun _ => ⟨0, 1000⟩) fun _ => 4).run electedRun).nodes 2 = some r ∧
      ((provisioned [1, 2, 3] (fun _ => ⟨0, 1000⟩) fun _ => 4).run
        (electedRun ++ succeededRun)).nodes 1 = some r' ∧
      history 2 (provisioned [1, 2, 3] (fun _ => ⟨0, 1000⟩) fun _ => 4) electedRun <+:
        history 1 (provisioned [1, 2, 3] (fun _ => ⟨0, 1000⟩) fun _ => 4)
          (electedRun ++ succeededRun) := by
  obtain ⟨r, hr, -, -, -, -, hcommitted, -⟩ := electedRun_serves 2 (by decide)
  obtain ⟨r', hr', -, hcommitted'⟩ := succeededRun_follows
  exact ⟨r, r', hr, hr', (one_history succeededRun_plain succeededRun_fits hr hr').1
    (hcommitted.trans hcommitted'.symm).le⟩

/-! ### What clients see -/

/-- What a node applied at a slot it committed, it had in its history. -/
theorem exists_history {events : List ClusterEvent} {node slot : Nat} {r : Replica SegmentedLog}
    (hnode : ((provisioned order knobs tailCapacity).run events).nodes node = some r)
    (hlow : initSlot < slot) (hhigh : slot ≤ r.progress.committed) :
    ∃ entry ∈ history node (provisioned order knobs tailCapacity) events, entry.slot = slot := by
  have hmem : slot ∈ (history node (provisioned order knobs tailCapacity) events).map
      LogEntry.slot := by
    rw [history_slots hnode, List.mem_range'_1]
    omega
  exact List.mem_map.mp hmem

/-- An entry of a history is behind the genesis, and what it carries was applied. -/
theorem history_mem {events : List ClusterEvent} {node : Nat} {r : Replica SegmentedLog}
    (hnode : ((provisioned order knobs tailCapacity).run events).nodes node = some r)
    {entry : LogEntry}
    (hentry : entry ∈ history node (provisioned order knobs tailCapacity) events) :
    (initSlot < entry.slot ∧ entry.slot ≤ r.progress.committed) ∧
      ∀ release, entry.release node = some release →
        release ∈ ((provisioned order knobs tailCapacity).run events).applied := by
  refine ⟨?_, fun release hrelease => ?_⟩
  · have hslot := List.mem_map_of_mem (f := LogEntry.slot) hentry
    rw [history_slots hnode, List.mem_range'_1] at hslot
    omega
  · have hmem : release ∈ (history node (provisioned order knobs tailCapacity) events).filterMap
        (LogEntry.release node) := List.mem_filterMap.mpr ⟨entry, hentry, hrelease⟩
    rw [← history_applied hnode] at hmem
    exact List.mem_of_mem_filter hmem

/-- What is proposed only later gets a later slot than anything applied before. -/
theorem later_slot {before after : List ClusterEvent}
    (hplain : ∀ event ∈ before ++ after, Genesis.PlainEvent event)
    (hfits : Along Genesis.SuffixesFit (provisioned order knobs tailCapacity) (before ++ after))
    {first : Release} (hfirst : first ∈ ((provisioned order knobs tailCapacity).run before).applied)
    {node : Nat} {r : Replica SegmentedLog}
    (hnode : ((provisioned order knobs tailCapacity).run (before ++ after)).nodes node = some r)
    {later : LogEntry}
    (hlater : later ∈ history node (provisioned order knobs tailCapacity) (before ++ after))
    {id : OperationId} {payload : List UInt8} (hpayload : later.payload = .operation id payload)
    (hnew : ∀ slot, ¬ (provisioned order knobs tailCapacity).ProposedFor before slot id payload) :
    first.slot < later.slot := by
  by_contra hbefore
  have hsupplied := supplied_run order knobs tailCapacity before
  obtain ⟨r', hr', hle⟩ := hsupplied.behind first hfirst
  obtain ⟨⟨hlow, -⟩, -⟩ := history_mem hnode hlater
  -- the node that applied the first one had an entry at the slot, and it is the same entry
  obtain ⟨entry, hentry, hslot⟩ := exists_history hr' hlow (by omega)
  have hearly : entry ∈ history first.node (provisioned order knobs tailCapacity)
      (before ++ after) := by
    rw [history_append]
    exact List.mem_append_left _ hentry
  obtain rfl := history_eq hplain hfits hearly hlater hslot
  refine hnew entry.slot (hsupplied.applied
    { node := first.node, slot := entry.slot, operationId := id, payload := payload }
    ((history_mem hr' hentry).2 _ ?_))
  unfold LogEntry.release
  rw [hpayload]

theorem run_node_exists {c : Cluster} {events : List ClusterEvent} {node : Nat}
    {r' : Replica SegmentedLog} (h : (c.run events).nodes node = some r') :
    ∃ r, c.nodes node = some r := by
  induction events generalizing c with
  | nil => exact ⟨r', h⟩
  | cons event events ih =>
    obtain ⟨r, hr⟩ := ih h
    exact step_node_exists hr

/-- There is a node that committed most. -/
theorem exists_furthest {events : List ClusterEvent} {node : Nat} {r : Replica SegmentedLog}
    (hnode : ((provisioned order knobs tailCapacity).run events).nodes node = some r) :
    ∃ last s, ((provisioned order knobs tailCapacity).run events).nodes last = some s ∧
      ∀ other s', ((provisioned order knobs tailCapacity).run events).nodes other = some s' →
        s'.progress.committed ≤ s.progress.committed := by
  have hmember : ∀ {other s}, ((provisioned order knobs tailCapacity).run events).nodes other =
      some s → other ∈ order := by
    intro other s hs
    obtain ⟨s', hs'⟩ := run_node_exists hs
    exact provisioned_member hs'
  generalize (provisioned order knobs tailCapacity).run events = c at hnode hmember
  obtain ⟨last, hlast, hmost⟩ :=
    (order.toFinset.filter fun other => (c.nodes other).isSome).exists_max_image
      (fun other => (c.nodes other).elim 0 fun s => s.progress.committed)
      ⟨node, Finset.mem_filter.mpr ⟨List.mem_toFinset.mpr (hmember hnode), by rw [hnode]; rfl⟩⟩
  obtain ⟨s, hs⟩ := Option.isSome_iff_exists.mp (Finset.mem_filter.mp hlast).2
  refine ⟨last, s, hs, fun other s' hs' => ?_⟩
  have hle := hmost other
    (Finset.mem_filter.mpr ⟨List.mem_toFinset.mpr (hmember hs'), by rw [hs']; rfl⟩)
  rw [hs, hs'] at hle
  exact hle

theorem release_some {node : Nat} {entry : LogEntry} {release : Release}
    (h : entry.release node = some release) :
    entry.slot = release.slot ∧
      entry.payload = .operation release.operationId release.payload := by
  unfold LogEntry.release at h
  split at h
  · rename_i id payload hpayload
    cases h
    exact ⟨rfl, hpayload⟩
  · cases h

/-- The operations of a history are those its node applied. -/
theorem history_count {events : List ClusterEvent} {node : Nat} {r : Replica SegmentedLog}
    (hnode : ((provisioned order knobs tailCapacity).run events).nodes node = some r)
    (id : OperationId) (payload : List UInt8) :
    ((history node (provisioned order knobs tailCapacity) events).countP fun entry =>
      entry.payload = .operation id payload) ≤ proposals id payload events := by
  refine le_trans (le_of_eq ?_)
    ((supplied_run order knobs tailCapacity events).applied_le node id payload)
  have hcount := congrArg (List.countP fun release =>
    decide (release.operationId = id ∧ release.payload = payload)) (history_applied hnode)
  rw [List.countP_filter, List.countP_filterMap] at hcount
  refine Eq.trans (List.countP_congr fun entry _ => ?_) (hcount.symm.trans
    (List.countP_congr fun release _ => ?_))
  · unfold LogEntry.release
    cases entry.payload <;> simp
  · simp only [Bool.and_eq_true, decide_eq_true_eq]
    exact and_comm

/-- **Linearizability.** The run has one history. Every node applied the operations of its first
entries, in order; the history has an operation no more often than it was proposed; and an
operation that no primary had been offered when another was applied anywhere comes behind it. -/
theorem linearizable {events : List ClusterEvent}
    (hplain : ∀ event ∈ events, Genesis.PlainEvent event)
    (hfits : Along Genesis.SuffixesFit (provisioned order knobs tailCapacity) events) :
    ∃ H : List LogEntry,
      (H.map LogEntry.slot).Pairwise (· < ·) ∧
      (∀ node r, ((provisioned order knobs tailCapacity).run events).nodes node = some r →
        (((provisioned order knobs tailCapacity).run events).applied.filter fun release =>
          release.node = node) =
            (H.take (r.progress.committed - initSlot)).filterMap (LogEntry.release node)) ∧
      (∀ id payload, (H.countP fun entry => entry.payload = .operation id payload) ≤
        proposals id payload events) ∧
      ∀ before after, events = before ++ after →
        ∀ first ∈ ((provisioned order knobs tailCapacity).run before).applied,
        ∀ later ∈ H, ∀ id payload, later.payload = .operation id payload →
          (∀ slot, ¬ (provisioned order knobs tailCapacity).ProposedFor before slot id payload) →
          ∃ entry ∈ H, entry.slot = first.slot ∧
            entry.payload = .operation first.operationId first.payload ∧
            entry.slot < later.slot := by
  by_cases hany : ∃ node r,
      ((provisioned order knobs tailCapacity).run events).nodes node = some r
  · obtain ⟨node, r, hnode⟩ := hany
    obtain ⟨last, s, hlast, hmost⟩ := exists_furthest hnode
    refine ⟨history last (provisioned order knobs tailCapacity) events, ?_,
      fun other s' hs' => ?_, fun id payload => history_count hlast id payload,
      fun before after heq first hfirst later hlater id payload hpayload hnew => ?_⟩
    · rw [history_slots hlast]
      exact List.pairwise_lt_range'
    · have hprefix := prefix_of_keys (history_slots hs') (history_slots hlast)
        (Nat.sub_le_sub_right (hmost other s' hs') _) fun entry hentry entry' hentry' =>
          history_eq hplain hfits hentry hentry'
      have hlength := congrArg List.length (history_slots hs')
      rw [List.length_map, List.length_range'] at hlength
      rw [history_applied hs', ← hlength, ← List.prefix_iff_eq_take.mp hprefix]
    · subst heq
      have hslot := later_slot hplain hfits hfirst hlast hlater hpayload hnew
      obtain ⟨r', hr', hle⟩ :=
        (supplied_run order knobs tailCapacity before).behind first hfirst
      have hown : first ∈ ((provisioned order knobs tailCapacity).run before).applied.filter
          fun release => release.node = first.node :=
        List.mem_filter.mpr ⟨hfirst, decide_eq_true rfl⟩
      rw [history_applied hr'] at hown
      obtain ⟨entry, hentry, hrelease⟩ := List.mem_filterMap.mp hown
      obtain ⟨hsame, hentrypayload⟩ := release_some hrelease
      obtain ⟨⟨hlow, -⟩, -⟩ := history_mem hr' hentry
      obtain ⟨⟨-, hhigh⟩, -⟩ := history_mem hlast hlater
      -- the longest history reaches beyond the slot, and all histories agree there
      obtain ⟨held, hheld, heq⟩ := exists_history hlast hlow (by omega)
      have hearly : entry ∈ history first.node (provisioned order knobs tailCapacity)
          (before ++ after) := by
        rw [history_append]
        exact List.mem_append_left _ hentry
      rw [history_eq hplain hfits hheld hearly heq] at hheld
      exact ⟨entry, hheld, hsame, hentrypayload, hsame.trans_lt hslot⟩
  · refine ⟨[], .nil, fun node r hr => absurd ⟨node, r, hr⟩ hany, fun _ _ => Nat.zero_le _,
      fun _ _ _ _ _ _ hmem => nomatch hmem⟩

theorem linearizable_elected :
    ∃ H : List LogEntry,
      (H.map LogEntry.slot).Pairwise (· < ·) ∧
      (((provisioned [1, 2, 3] (fun _ => ⟨0, 1000⟩) fun _ => 4).run electedRun).applied.filter
        fun release => release.node = 2) = (H.take 1).filterMap (LogEntry.release 2) ∧
      (H.countP fun entry => entry.payload = .operation ⟨0, 2⟩ []) ≤ 1 := by
  obtain ⟨r, hr, -, -, -, -, hcommitted, -⟩ := electedRun_serves 2 (by decide)
  obtain ⟨H, hascending, happlied, hcount, -⟩ := linearizable electedRun_plain electedRun_fits
  have hfirst := happlied 2 r hr
  rw [hcommitted] at hfirst
  exact ⟨H, hascending, hfirst, hcount ⟨0, 2⟩ []⟩

end Cluster

end UvrrCore
