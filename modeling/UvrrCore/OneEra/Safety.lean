import UvrrCore.OneEra.Run

/-!
# What the logs of the first era say of each other

In the runs of which agreement is proved, it is not only what is applied that agrees. The logs of
all replicas are logs of one viewstamped state, and that state only grows, so a replica late in the
run can be compared with one that stood earlier.

## Main results

* `Cluster.committed_agree`: journals agree as far as two replicas committed, and with every
  operation any node ever applied there.
* `Cluster.committed_survives`: what was committed under a ballot is held, at the same slots, by
  every replica that later retains a higher one.
* `Cluster.same_view`: the replicas serving one view hold initial segments of its primary's log.
-/

namespace UvrrCore

open Viewstamped

namespace Genesis

variable {g : Genesis} {a a' : Ledger} {sent sent' : List Envelope} {node node' : Nat}
  {r r' : Replica SegmentedLog} {slot : Nat} {entry entry' : LogEntry}

/-! ### Reading a journal as a log -/

/-- A slot a journal holds is a position of its node's log. -/
theorem Tracks.read (h : g.Tracks a sent node r) (hentry : Journal.get r.journal slot = some entry) :
    ∃ s, slot = s + 1 ∧ (a.nodes node).log[s]? = some entry := by
  have hread := h.reads slot entry hentry
  cases slot with
  | zero => cases hread
  | succ s => exact ⟨s, rfl, hread⟩

/-- A committed slot is chosen under a ballot not above the one retained. -/
theorem Tracks.committed (h : g.Tracks a sent node r) (hinv : Inv g.setting a)
    (hentry : Journal.get r.journal slot = some entry) (hslot : slot ≤ r.progress.committed) :
    ∃ s b, slot = s + 1 ∧ b ≤ r.progress.retained ∧ a.Chosen g.setting b s ∧
      (a.hist b)[s]? = some entry := by
  obtain ⟨s, rfl, hlog⟩ := h.read hentry
  have hlt : s < (a.nodes node).committed := by
    have := h.record.committed
    omega
  obtain ⟨b, hle, hchosen, v, hv, hhist⟩ := (hinv.good node).committed s hlt
  have hsame : v = entry := Option.some.inj (hv.symm.trans hlog)
  exact ⟨s, b, rfl, h.record.retained ▸ hle, hchosen, hsame ▸ hhist⟩

/-- Two replicas hold the same at a slot both committed. -/
theorem committed_eq (hinv : Inv g.setting a) (h : g.Tracks a sent node r)
    (h' : g.Tracks a sent' node' r') (hentry : Journal.get r.journal slot = some entry)
    (hentry' : Journal.get r'.journal slot = some entry') (hslot : slot ≤ r.progress.committed)
    (hslot' : slot ≤ r'.progress.committed) : entry = entry' := by
  obtain ⟨s, b, rfl, -, hchosen, hhist⟩ := h.committed hinv hentry hslot
  obtain ⟨s', b', heq, -, hchosen', hhist'⟩ := h'.committed hinv hentry' hslot'
  obtain rfl : s = s' := by omega
  obtain ⟨v, hv, hv'⟩ := hinv.chosen_agree hchosen hchosen'
  exact (Option.some.inj (hhist.symm.trans hv)).trans (Option.some.inj (hv'.symm.trans hhist'))

/-- A committed slot holds what any node applied there. -/
theorem Applies.committed_eq (hinv : Inv g.setting a) (h : g.Tracks a sent node r)
    (hentry : Journal.get r.journal slot = some entry) (hslot : slot ≤ r.progress.committed)
    {id : OperationId} {payload : List UInt8} (happlies : g.Applies a slot id payload) :
    entry.payload = .operation id payload := by
  obtain ⟨s, b, rfl, -, hchosen, hhist⟩ := h.committed hinv hentry hslot
  obtain ⟨b', s', applied, heq, hchosen', hhist', hpayload⟩ := happlies
  obtain rfl : s = s' := by omega
  obtain ⟨v, hv, hv'⟩ := hinv.chosen_agree hchosen hchosen'
  have hsame : entry = applied :=
    (Option.some.inj (hhist.symm.trans hv)).trans (Option.some.inj (hv'.symm.trans hhist'))
  rw [hsame, hpayload]

/-- **What is committed under a ballot** is held wherever a higher ballot is retained later, and
wherever the same one is and the log reaches. -/
theorem committed_held (hinv : Inv g.setting a) (hinv' : Inv g.setting a') (hgrows : Grows a a')
    (h : g.Tracks a sent node r) (h' : g.Tracks a' sent' node' r')
    (hentry : Journal.get r.journal slot = some entry) (hslot : slot ≤ r.progress.committed)
    (hballot : r.progress.retained ≤ r'.progress.retained) :
    (r.progress.retained < r'.progress.retained → slot ≤ r'.progress.accepted) ∧
      ∀ entry', Journal.get r'.journal slot = some entry' → entry' = entry := by
  obtain ⟨s, b, rfl, hb, hchosen, hhist⟩ := h.committed hinv hentry hslot
  have hgood := hinv'.good node'
  have hchoosable := Chosen.choosable (chosen_mono hgrows hchosen)
  have hretained : r'.progress.retained = (a'.nodes node').retained := h'.record.retained
  have haccepted : r'.progress.accepted = (a'.nodes node').log.length := h'.record.accepted
  have hle : b ≤ (a'.nodes node').retained := (hb.trans hballot).trans_eq hretained
  refine ⟨fun hlt => ?_, fun entry' hentry' => ?_⟩
  · have hagree := hgood.below b s hchoosable ((hb.trans_lt hlt).trans_eq hretained)
    have hlen : s < (a'.nodes node').log.length := hagree.lt_left
    omega
  · obtain ⟨s', heq, hlog⟩ := h'.read hentry'
    obtain rfl : s = s' := by omega
    have hlen : s < (a'.nodes node').log.length := (List.getElem?_eq_some_iff.mp hlog).1
    obtain ⟨v, hv, hv'⟩ := hgood.agree hchoosable hle hlen
    have hsame : v = entry' := Option.some.inj (hv.symm.trans hlog)
    have hmore := getElem?_of_segment (hgrows.hist b) hhist
    exact hsame.symm.trans (Option.some.inj (hv'.symm.trans hmore))

/-! ### One view -/

/-- The replicas serving a view hold initial segments of its log, its primary all of it. -/
theorem serving_log (hinv : Inv g.setting a) (h : g.Tracks a sent node r)
    (hserving : r.progress.status = .normal) :
    (a.nodes node).log <+: a.hist r.progress.current ∧
      (a.Whole node → r.primaryOf r.progress.current = some node →
        (a.nodes node).log = a.hist r.progress.current) := by
  have hnode : (a.nodes node).retained = (a.nodes node).current :=
    h.serving (by rw [hserving]; decide)
  have hcurrent : (a.nodes node).retained = r.progress.current :=
    hnode.trans h.record.current.symm
  refine ⟨?_, fun hwhole hprimary => ?_⟩
  · have hlog := (hinv.good node).serving hnode
    rwa [show (a.nodes node).snapshot.retained = r.progress.current from hcurrent] at hlog
  · have hleads := h.primary h.record.era hprimary
    rw [← hcurrent] at hleads
    exact (hinv.primary_log hwhole hnode hleads).trans (by rw [hcurrent])

end Genesis

namespace Cluster

variable {order : List Nat} {knobs : Nat → ViewChangeKnobs} {tailCapacity : Nat → Nat}

theorem provisioned_silent {order : List Nat} {knobs : Nat → ViewChangeKnobs}
    {tailCapacity : Nat → Nat} {error : ConfigError}
    (hfolds : Replica.genesisTable order = .error error) (node : Nat) :
    (provisioned order knobs tailCapacity).nodes node = none := by
  cases hnode : (provisioned order knobs tailCapacity).nodes node with
  | none => rfl
  | some r =>
    obtain ⟨table, -, -, htable, -⟩ := provisioned_node hnode
    rw [hfolds] at htable
    cases htable

/-- A node of a run comes from a genesis that folds, and the cluster stands for a state that goes
on growing. -/
theorem stands_of_node {before after : List ClusterEvent} {node : Nat}
    {r : Replica SegmentedLog}
    (hplain : ∀ event ∈ before ++ after, Genesis.PlainEvent event)
    (hfits : Along Genesis.SuffixesFit (provisioned order knobs tailCapacity) (before ++ after))
    (hnode : ((provisioned order knobs tailCapacity).run before).nodes node = some r) :
    ∃ (g : Genesis) (a a' : Ledger), Grows a a' ∧
      Genesis.Stands g a ((provisioned order knobs tailCapacity).run before) ∧
      Genesis.Stands g a' ((provisioned order knobs tailCapacity).run (before ++ after)) := by
  cases hfolds : Replica.genesisTable order with
  | ok table =>
    obtain ⟨hfits, hfits'⟩ := along_append.mp hfits
    obtain ⟨a, hstands⟩ :=
      (Genesis.stands_provisioned { order := order, table := table, folds := hfolds } knobs
        tailCapacity).run (fun event hmem => hplain event (List.mem_append_left _ hmem)) hfits
    obtain ⟨a', hgrows, hstands'⟩ := hstands.grows_run
      (fun event hmem => hplain event (List.mem_append_right _ hmem)) hfits'
    have hrun : (provisioned order knobs tailCapacity).run (before ++ after) =
        ((provisioned order knobs tailCapacity).run before).run after := List.foldl_append
    exact ⟨_, a, a', hgrows, hstands, hrun ▸ hstands'⟩
  | error error =>
    rw [run_silent (provisioned_silent hfolds), provisioned_silent hfolds] at hnode
    cases hnode

/-- The same of a node at the end of the run. -/
theorem stands_at_node {events : List ClusterEvent} {node : Nat} {r : Replica SegmentedLog}
    (hplain : ∀ event ∈ events, Genesis.PlainEvent event)
    (hfits : Along Genesis.SuffixesFit (provisioned order knobs tailCapacity) events)
    (hnode : ((provisioned order knobs tailCapacity).run events).nodes node = some r) :
    ∃ (g : Genesis) (a : Ledger),
      Genesis.Stands g a ((provisioned order knobs tailCapacity).run events) := by
  have happend : events ++ [] = events := List.append_nil events
  rw [← happend] at hplain hfits
  obtain ⟨g, a, -, -, hstands, -⟩ := stands_of_node hplain hfits hnode
  exact ⟨g, a, hstands⟩

/-- Node 1 proposes one operation and hears no more; node 2 opens view 1 without it and commits
another at its slot, with node 3. -/
def electedRun : List ClusterEvent :=
  [.input 1 1 .tick, .deliver 0 1, .deliver 1 1, .input 1 2 (.propose ⟨⟨0, 1⟩, []⟩),
    .input 2 3 (.adminForceView ⟨1, 1⟩), .deliver 5 3, .deliver 7 3, .deliver 8 3, .deliver 10 3,
    .input 2 4 (.propose ⟨⟨0, 2⟩, []⟩), .deliver 12 4, .deliver 13 4, .deliver 15 5]

/-- Node 3 opens view 2, and node 1 takes it on. -/
def succeededRun : List ClusterEvent :=
  [.input 3 6 (.adminForceView ⟨1, 2⟩), .deliver 17 6, .deliver 19 6, .deliver 20 6, .deliver 21 7]

theorem electedRun_plain : ∀ event ∈ electedRun, Genesis.PlainEvent event := by decide

theorem succeededRun_plain :
    ∀ event ∈ electedRun ++ succeededRun, Genesis.PlainEvent event := by
  decide

theorem succeededRun_fits :
    Along Genesis.SuffixesFit (provisioned [1, 2, 3] (fun _ => ⟨0, 1000⟩) fun _ => 4)
      (electedRun ++ succeededRun) := by
  decide +kernel

theorem electedRun_fits :
    Along Genesis.SuffixesFit (provisioned [1, 2, 3] (fun _ => ⟨0, 1000⟩) fun _ => 4)
      electedRun :=
  (along_append.mp succeededRun_fits).1

/-- Nodes 2 and 3 serve view 1 and committed its operation. -/
theorem electedRun_serves :
    ∀ node ∈ [2, 3], ∃ r,
      ((provisioned [1, 2, 3] (fun _ => ⟨0, 1000⟩) fun _ => 4).run electedRun).nodes node =
        some r ∧
      r.progress.status = .normal ∧ r.progress.current = ⟨1, 1⟩ ∧
      r.primaryOf r.progress.current = some 2 ∧ r.progress.retained = ⟨1, 1⟩ ∧
      r.progress.committed = 3 ∧ (Journal.get r.journal 3).isSome := by
  have hrun : ∀ node ∈ [2, 3], (((provisioned [1, 2, 3] (fun _ => ⟨0, 1000⟩) fun _ => 4).run
      electedRun).nodes node).map (fun r => decide (
      r.progress.status = .normal ∧ r.progress.current = ⟨1, 1⟩ ∧
      r.primaryOf r.progress.current = some 2 ∧ r.progress.retained = ⟨1, 1⟩ ∧
      r.progress.committed = 3 ∧ (Journal.get r.journal 3).isSome)) = some true := by
    decide +kernel
  intro node hmem
  obtain ⟨r, hr, hserves⟩ := Option.map_eq_some_iff.mp (hrun node hmem)
  exact ⟨r, hr, of_decide_eq_true hserves⟩

/-- Node 1 retains view 2 and committed as far. -/
theorem succeededRun_follows :
    ∃ r,
      ((provisioned [1, 2, 3] (fun _ => ⟨0, 1000⟩) fun _ => 4).run
        (electedRun ++ succeededRun)).nodes 1 = some r ∧
      r.progress.retained = ⟨1, 2⟩ ∧ r.progress.committed = 3 := by
  have hrun : (((provisioned [1, 2, 3] (fun _ => ⟨0, 1000⟩) fun _ => 4).run
      (electedRun ++ succeededRun)).nodes 1).map (fun r => decide (
      r.progress.retained = ⟨1, 2⟩ ∧ r.progress.committed = 3)) = some true := by
    decide +kernel
  obtain ⟨r, hr, hfollows⟩ := Option.map_eq_some_iff.mp hrun
  exact ⟨r, hr, of_decide_eq_true hfollows⟩

/-- **Committed journals agree.** In every run of which agreement is proved, two replicas hold the
same entry at every slot that both committed and both still hold, and it is the operation any node
ever applied there. -/
theorem committed_agree {events : List ClusterEvent}
    (hplain : ∀ event ∈ events, Genesis.PlainEvent event)
    (hfits : Along Genesis.SuffixesFit (provisioned order knobs tailCapacity) events)
    {node node' : Nat} {r r' : Replica SegmentedLog}
    (hnode : ((provisioned order knobs tailCapacity).run events).nodes node = some r)
    (hnode' : ((provisioned order knobs tailCapacity).run events).nodes node' = some r')
    {slot : Nat} {entry : LogEntry} (hentry : Journal.get r.journal slot = some entry)
    (hslot : slot ≤ r.progress.committed) :
    (∀ entry', slot ≤ r'.progress.committed → Journal.get r'.journal slot = some entry' →
      entry = entry') ∧
    ∀ release ∈ ((provisioned order knobs tailCapacity).run events).applied,
      release.slot = slot → entry.payload = .operation release.operationId release.payload := by
  obtain ⟨g, a, hstands⟩ := stands_at_node hplain hfits hnode
  have htracks := hstands.tracks node r hnode
  refine ⟨fun entry' hslot' hentry' => ?_, fun release hmem heq => ?_⟩
  · exact Genesis.committed_eq hstands.inv htracks (hstands.tracks node' r' hnode') hentry hentry'
      hslot hslot'
  · exact Genesis.Applies.committed_eq hstands.inv htracks hentry hslot
      (heq ▸ hstands.applied release hmem)

theorem committed_agree_elected :
    ∃ r r' entry,
      ((provisioned [1, 2, 3] (fun _ => ⟨0, 1000⟩) fun _ => 4).run electedRun).nodes 2 = some r ∧
      ((provisioned [1, 2, 3] (fun _ => ⟨0, 1000⟩) fun _ => 4).run electedRun).nodes 3 = some r' ∧
      Journal.get r.journal 3 = some entry ∧ Journal.get r'.journal 3 = some entry := by
  obtain ⟨r, hr, -, -, -, -, hcommitted, hsome⟩ := electedRun_serves 2 (by decide)
  obtain ⟨r', hr', -, -, -, -, hcommitted', hsome'⟩ := electedRun_serves 3 (by decide)
  obtain ⟨entry, hentry⟩ := Option.isSome_iff_exists.mp hsome
  obtain ⟨entry', hentry'⟩ := Option.isSome_iff_exists.mp hsome'
  have hsame := (committed_agree electedRun_plain electedRun_fits hr hr' hentry
    hcommitted.ge).1 entry' hcommitted'.ge hentry'
  exact ⟨r, r', entry, hr, hr', hentry, hsame ▸ hentry'⟩

/-- **What is committed survives.** Once a replica has committed an entry under the ballot it
retains, every replica that retains a higher ballot at any later time reaches the slot and, unless
it has let it go, holds that entry there; and so does one that retains the same ballot, as far as
it reaches. -/
theorem committed_survives {before after : List ClusterEvent}
    (hplain : ∀ event ∈ before ++ after, Genesis.PlainEvent event)
    (hfits : Along Genesis.SuffixesFit (provisioned order knobs tailCapacity) (before ++ after))
    {node node' : Nat} {r r' : Replica SegmentedLog}
    (hnode : ((provisioned order knobs tailCapacity).run before).nodes node = some r)
    (hnode' : ((provisioned order knobs tailCapacity).run (before ++ after)).nodes node' = some r')
    (hballot : r.progress.retained ≤ r'.progress.retained) {slot : Nat} {entry : LogEntry}
    (hentry : Journal.get r.journal slot = some entry) (hslot : slot ≤ r.progress.committed) :
    (r.progress.retained < r'.progress.retained → slot ≤ r'.progress.accepted) ∧
      ∀ entry', Journal.get r'.journal slot = some entry' → entry' = entry := by
  obtain ⟨g, a, a', hgrows, hstands, hstands'⟩ := stands_of_node hplain hfits hnode
  exact Genesis.committed_held hstands.inv hstands'.inv hgrows (hstands.tracks node r hnode)
    (hstands'.tracks node' r' hnode') hentry hslot hballot

/-- The operation of node 1 gave way. -/
theorem committed_survives_succeeded :
    ∃ r r',
      ((provisioned [1, 2, 3] (fun _ => ⟨0, 1000⟩) fun _ => 4).run electedRun).nodes 2 = some r ∧
      ((provisioned [1, 2, 3] (fun _ => ⟨0, 1000⟩) fun _ => 4).run
        (electedRun ++ succeededRun)).nodes 1 = some r' ∧
      3 ≤ r'.progress.accepted ∧
      ∀ entry, Journal.get r'.journal 3 = some entry → Journal.get r.journal 3 = some entry := by
  obtain ⟨r, hr, -, -, -, hretained, hcommitted, hsome⟩ := electedRun_serves 2 (by decide)
  obtain ⟨r', hr', hretained', -⟩ := succeededRun_follows
  obtain ⟨entry, hentry⟩ := Option.isSome_iff_exists.mp hsome
  have hlt : r.progress.retained < r'.progress.retained := by
    rw [hretained, hretained']
    decide
  obtain ⟨hreached, hheld⟩ := committed_survives succeededRun_plain succeededRun_fits hr hr' hlt.le
    hentry hcommitted.ge
  exact ⟨r, r', hr, hr', hreached hlt, fun entry' hentry' => hheld entry' hentry' ▸ hentry⟩

/-- **One view, one log.** Two replicas that serve the same view hold the same entries wherever
both hold one, and none is ahead of the view's primary. -/
theorem same_view {events : List ClusterEvent}
    (hplain : ∀ event ∈ events, Genesis.PlainEvent event)
    (hfits : Along Genesis.SuffixesFit (provisioned order knobs tailCapacity) events)
    {node node' : Nat} {r r' : Replica SegmentedLog}
    (hnode : ((provisioned order knobs tailCapacity).run events).nodes node = some r)
    (hnode' : ((provisioned order knobs tailCapacity).run events).nodes node' = some r')
    (hserving : r.progress.status = .normal) (hserving' : r'.progress.status = .normal)
    (hview : r.progress.current = r'.progress.current) :
    (∀ slot entry entry', Journal.get r.journal slot = some entry →
      Journal.get r'.journal slot = some entry' → entry = entry') ∧
    (r.primaryOf r.progress.current = some node → r'.progress.accepted ≤ r.progress.accepted) := by
  obtain ⟨g, a, hstands⟩ := stands_at_node hplain hfits hnode
  have htracks := hstands.tracks node r hnode
  have htracks' := hstands.tracks node' r' hnode'
  obtain ⟨hlog, hprimary⟩ := Genesis.serving_log hstands.inv htracks hserving
  obtain ⟨hlog', -⟩ := Genesis.serving_log hstands.inv htracks' hserving'
  rw [← hview] at hlog'
  refine ⟨fun slot entry entry' hentry hentry' => ?_, fun hleads => ?_⟩
  · obtain ⟨s, rfl, hread⟩ := htracks.read hentry
    obtain ⟨s', heq, hread'⟩ := htracks'.read hentry'
    obtain rfl : s = s' := by omega
    exact Option.some.inj ((getElem?_of_segment hlog hread).symm.trans
      (getElem?_of_segment hlog' hread'))
  · rw [htracks.record.accepted, htracks'.record.accepted,
      hprimary (hstands.whole node) hleads]
    exact hlog'.length_le

/-- Nodes 2 and 3 in view 1. -/
theorem same_view_elected :
    ∃ r r',
      ((provisioned [1, 2, 3] (fun _ => ⟨0, 1000⟩) fun _ => 4).run electedRun).nodes 2 = some r ∧
      ((provisioned [1, 2, 3] (fun _ => ⟨0, 1000⟩) fun _ => 4).run electedRun).nodes 3 = some r' ∧
      r'.progress.accepted ≤ r.progress.accepted := by
  obtain ⟨r, hr, hnormal, hcurrent, hleads, -⟩ := electedRun_serves 2 (by decide)
  obtain ⟨r', hr', hnormal', hcurrent', -⟩ := electedRun_serves 3 (by decide)
  exact ⟨r, r', hr, hr', (same_view electedRun_plain electedRun_fits hr hr' hnormal hnormal'
    (hcurrent.trans hcurrent'.symm)).2 hleads⟩

end Cluster

end UvrrCore
