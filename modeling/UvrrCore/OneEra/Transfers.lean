import UvrrCore.OneEra.Elections

/-!
# State transfer in the first era

A responder answers with a part of its log. A replica that serves its ballot takes a chunk from
one that serves the same (`ChunkFits`) as more of the ballot's log; a fenced one fills its log
from a history of its own ballot or a higher one.
-/

namespace UvrrCore

open Viewstamped

/-- **A chunk fits**: what the responder served when it answered is the ballot of the requester's
history, or, for a fenced requester, not below it. A requester that never served takes a chunk
for its boot view only. -/
def ChunkFits (r origin : Replica SegmentedLog) (view : Ballot) : Prop :=
  if r.progress.status = .viewChange then r.progress.retained ≤ origin.progress.retained
  else
    origin.progress.status = .normal ∧ origin.progress.retained = r.progress.retained ∧
      (r.progress.status = .normal ∨ view = r.progress.current)

instance (r origin : Replica SegmentedLog) (view : Ballot) : Decidable (ChunkFits r origin view) := by
  unfold ChunkFits
  infer_instance

theorem merged_filter {journal : SegmentedLog} {entries : List LogEntry} {last slot : Nat}
    (h : slot ≤ last) :
    merged journal (entries.filter fun entry => decide (entry.slot ≤ last)) slot =
      merged journal entries slot := by
  unfold merged
  rw [entryAt_covered entries h]

namespace Genesis

variable {g : Genesis} {a : Ledger} {sent : List Envelope} {node : Nat}
  {r : Replica SegmentedLog}

/-! ### Answering -/

/-- **An answer** is a part of the responder's log. -/
theorem planGetState_refines (htracks : g.Tracks a sent node r) {sender : Nat} {message : Message}
    {start : Nat} {kind : InputKind}
    {plan : PlannedTransition} (h : r.planGetState sender message start kind = .ok plan) :
    g.Refines a sent node r plan := by
  unfold Replica.planGetState at h
  simp only at h
  split at h
  · exact dropPlan_refines htracks h
  · have hserved : ∀ last plan, (r.servedChunk start).getLast? = some last →
        r.emitPlan
          [.send sender message.header.view.era
            { header := { view := message.header.view, slot := last.slot }
              body := .newState (r.servedChunk start) last.slot r.progress.committed
                (decide (last.slot < r.progress.accepted)) }]
          kind = Except.ok plan → g.Refines a sent node r plan := by
      intro last plan hlast h
      obtain ⟨hoffers, hrun⟩ := packChunk_run htracks.reads r.knobs.viewChangeBudget
        (r.progress.accepted + 1 - start) start 0
      have hend := hrun.getLast?_slot hlast
      have hpos : 1 ≤ start := by
        cases hchunk : r.servedChunk start with
        | nil =>
          rw [hchunk] at hlast
          cases hlast
        | cons entry rest =>
          have hmem : entry ∈ r.servedChunk start := by
            rw [hchunk]
            exact List.mem_cons_self
          have hslot : entry.slot = start := by
            have := hrun
            rw [show packChunk r.journal r.knobs.viewChangeBudget
              (r.progress.accepted + 1 - start) start 0 = r.servedChunk start from rfl,
              hchunk] at this
            exact this.1
          exact hslot ▸ (logAt_lt (hoffers entry hmem)).1
      refine emitPlan_refines htracks h fun effect hmem => ?_
      rw [List.mem_singleton] at hmem
      subst hmem
      exact ⟨trivial, hoffers, Or.inr ⟨start, hpos, hrun, hend.symm⟩,
        htracks.record.committed.le⟩
    split at h
    · exact dropPlan_refines htracks h
    · exact dropPlan_refines htracks h
    · exact dropPlan_refines htracks h
    · split at h
      · exact dropPlan_refines htracks h
      · rename_i last hlast
        exact hserved last plan hlast h
    · split at h
      · exact dropPlan_refines htracks h
      · rename_i last hlast
        exact hserved last plan hlast h

/-! ### Taking a chunk -/

theorem chunkCursor_mem {view : Ballot} {sender accepted : Nat} {onward : Bool} {ask : Effect}
    (h : ask ∈ (Replica.chunkCursor view sender accepted onward).1) :
    ∃ start, ask = (Replica.fetch view sender start).1 := by
  unfold Replica.chunkCursor at h
  split at h
  · split at h
    · exact ⟨_, List.mem_singleton.mp h⟩
    · cases h
  · cases h

/-- What the install of a chunk is, when no walk of the boot view follows. -/
theorem installChunk_ok {sender : Nat} {view : Ballot} {entries : List LogEntry} {through : Nat}
    {more : Bool} {folded : FoldedCommit} {mutation : JournalMutation} {kind : InputKind}
    {plan : PlannedTransition}
    (h : r.installChunk sender view entries through more folded mutation kind = .ok plan)
    (hstopped : folded.stopped = false) (hbump : folded.bump = none) (accepted : Nat)
    (haccepted : (if r.bootAcquisition view then max r.progress.accepted folded.covered
      else max r.progress.accepted through) = accepted) :
    ∃ applied applies asks, plan.candidate.toProgressData =
        r.recordWith r.progress.status accepted folded.covered applied folded.config none ∧
      r.chunkApplies (entries.filter fun entry => decide (entry.slot ≤ folded.covered))
        folded.covered = .ok applies ∧
      plan.journal = mutation ∧ plan.effects = applies ++ asks ∧
      CountsOnly plan.bookkeeping ∧ plan.bookkeeping.oks = [] ∧
      ∀ ask ∈ asks, ∃ fetched recipient start,
        ask = (Replica.fetch fetched recipient start).1 := by
  unfold Replica.installChunk at h
  obtain ⟨applies, happlies, h⟩ := bind_eq_ok.mp h
  obtain ⟨walked, hwalked, h⟩ := bind_eq_ok.mp h
  obtain ⟨applied, -, h⟩ := bind_eq_ok.mp h
  obtain ⟨candidate, hcandidate, h⟩ := bind_eq_ok.mp h
  cases pure_eq_ok.mp h
  have hnone : walked = none := by
    unfold Replica.walkTarget at hwalked
    rw [hstopped, Bool.and_false, Bool.false_and, if_neg (by decide)] at hwalked
    exact (Except.ok.inj hwalked).symm
  subst hnone
  rw [haccepted] at hcandidate
  have hrecord : candidate.toProgressData =
      r.recordWith r.progress.status accepted folded.covered applied folded.config none := by
    rw [hbump, ite_self] at hcandidate
    exact Replica.candidateWith_ok hcandidate
  refine ⟨applied, applies, _, hrecord, happlies, rfl, rfl,
    ⟨⟨fun hne => absurd rfl hne, rfl, rfl⟩, rfl, rfl, rfl⟩, rfl, fun ask hask => ?_⟩
  obtain ⟨start, rfl⟩ := chunkCursor_mem hask
  exact ⟨_, _, _, rfl⟩

theorem fetch_effective (view : Ballot) (recipient start : Nat) :
    g.Effective a node (Replica.fetch view recipient start).1 := ⟨trivial, trivial⟩

/-- The chunk a fenced replica takes fills its log from another history. -/
theorem adoptChunk_refines (hinv : Inv g.setting a) (htracks : g.Tracks a sent node r)
    (hfenced : r.progress.status = .viewChange) {σ : Snapshot Ballot LogEntry}
    (hσ : σ ∈ a.seen) (hretained : r.progress.retained ≤ σ.retained) {sender : Nat}
    {view : Ballot} {entries : List LogEntry} {through committed : Nat}
    (hoffers : Offers entries σ.log) (hshaped : Shaped entries through)
    (hmore : r.progress.accepted < through) {mutation : JournalMutation}
    (hcheck : r.checkSuffix entries through committed Slot.none = .install mutation)
    {more : Bool} {folded : FoldedCommit} (hcovered : folded.covered = r.progress.committed)
    (hconfig : folded.config = g.table) (hstopped : folded.stopped = false)
    (hbump : folded.bump = none) {kind : InputKind} {plan : PlannedTransition}
    (h : r.installChunk sender view entries through more folded mutation kind = .ok plan) :
    g.Refines a sent node r plan := by
  have hr := htracks.record
  have hleft := htracks.fenced hfenced
  have hboot : r.bootAcquisition view = false := by
    unfold Replica.bootAcquisition Replica.bootFenced
    rw [hfenced]
    simp [Status.isBoot]
  obtain ⟨applied, applies, asks, hcandidate, happlies, hjournal, heffects, hcounts, hoks,
    hasks⟩ := installChunk_ok h hstopped hbump through (by
      rw [hboot, if_neg (by decide)]
      omega)
  obtain ⟨log', hmutates, hlen, hnear, hbelow, hfrom⟩ :=
    checkSuffix_spliced htracks.reads hr.accepted hoffers hshaped hcheck
  have hpos := (firstSlot_of_shaped hshaped).1
  have hstep : Step g.setting a (a.move node { a.nodes node with log := log' }) := by
    refine .adopt node σ log' hσ hleft (by rw [← hr.retained]; exact hretained)
      (by rw [← hr.accepted]; omega) fun s hs => ?_
    by_cases hlow : s + 1 < firstSlot entries through
    · exact Or.inl (hbelow (s + 1) hlow)
    · rcases hfrom (s + 1) (by omega) (by omega) with hoffered | ⟨hnone, -⟩
      · exact Or.inr hoffered
      · exact absurd hnone (by unfold Slot.none; omega)
  obtain ⟨hinv', hgrows⟩ := hinv.step hstep
  have hnode := move_self (a := a) node { a.nodes node with log := log' }
  have hnone : applies = [] := by
    unfold Replica.chunkApplies at happlies
    rw [hcovered, if_neg (Nat.lt_irrefl _)] at happlies
    exact (Except.ok.inj happlies).symm
  rw [hconfig, hcovered] at hcandidate
  refine ⟨_, (Advances.refl g node a).tail hstep (move_others node _), htracks.landed hgrows ?_ ?_
    ?_ hcounts.view (Or.inr ?_) ?_ hcounts.toUntouched ?_ ?_ ?_⟩
  · rw [hcandidate, hnode]
    exact
      { config := rfl
        era := hr.era
        current := hr.current
        retained := hr.retained
        accepted := hlen.symm
        committed := hr.committed
        genesis := hr.genesis
        status := Or.inr (Or.inl ⟨hfenced, hleft⟩) }
  · rw [hcandidate]
    rfl
  · rw [hjournal, hnode]
    exact hmutates
  · rw [hcandidate]
    exact ⟨rfl, hfenced⟩
  · rw [hcounts.stalled]
    exact htracks.offered
  · intro p hp
    rw [hcounts.proposals] at hp
    cases hp
  · intro ok hok
    rw [hoks] at hok
    cases hok
  · intro effect hmem
    rw [heffects, hnone, List.nil_append] at hmem
    obtain ⟨fetched, recipient, start, rfl⟩ := hasks effect hmem
    exact fetch_effective fetched recipient start

theorem segment_logAt {xs ys : List LogEntry} (h : xs <+: ys) {slot : Nat}
    (hslot : slot ≤ xs.length) : logAt xs slot = logAt ys slot := by
  obtain ⟨rest, rfl⟩ := h
  exact (logAt_append_left hslot).symm

/-- The log behind a chunk of the ballot's history is more of that history. -/
theorem extended_log (hinv : Inv g.setting a) (htracks : g.Tracks a sent node r)
    (hne : r.progress.status ≠ .viewChange) {σ : Snapshot Ballot LogEntry} (hσ : σ ∈ a.seen)
    (hretained : σ.retained = r.progress.retained) (hserving : σ.serving)
    {entries : List LogEntry} {last committed : Nat} (hoffers : Offers entries σ.log)
    (hshaped : Shaped entries last) {mutation : JournalMutation}
    (hcheck : r.checkSuffix entries last committed Slot.none = .install mutation) :
    ∃ log', Mutates (a.nodes node).log mutation log' ∧ log'.length = last ∧
      log' <+: a.hist (a.nodes node).retained := by
  have hown : (a.nodes node).log <+: a.hist (a.nodes node).retained :=
    (hinv.good node).serving (htracks.serving hne)
  have hother : σ.log <+: a.hist (a.nodes node).retained := by
    rw [← htracks.record.retained, ← hretained]
    exact (hinv.seen σ hσ).serving hserving
  obtain ⟨log', hmutates, hlen, hnear, hbelow, hfrom⟩ :=
    checkSuffix_spliced htracks.reads htracks.record.accepted hoffers hshaped hcheck
  have hpos := (firstSlot_of_shaped hshaped).1
  refine ⟨log', hmutates, hlen, segment_of_agree fun s hs => ?_⟩
  obtain ⟨v, hv⟩ : ∃ v, log'[s]? = some v := ⟨_, List.getElem?_eq_getElem hs⟩
  refine ⟨v, hv, ?_⟩
  by_cases hlow : s + 1 < firstSlot entries last
  · have heq : log'[s]? = (a.nodes node).log[s]? := hbelow (s + 1) hlow
    exact getElem?_of_segment hown (heq ▸ hv)
  · rcases hfrom (s + 1) (by omega) (by omega) with hoffered | ⟨hnone, -⟩
    · have heq : log'[s]? = σ.log[s]? := hoffered
      exact getElem?_of_segment hother (heq ▸ hv)
    · exact absurd hnone (by unfold Slot.none; omega)

/-- What a serving replica reads through a chunk of its ballot's history stands there. -/
theorem chunk_reads (hinv : Inv g.setting a) (htracks : g.Tracks a sent node r)
    (hne : r.progress.status ≠ .viewChange) {σ : Snapshot Ballot LogEntry} (hσ : σ ∈ a.seen)
    (hretained : σ.retained = r.progress.retained) (hserving : σ.serving)
    {entries : List LogEntry} (hoffers : Offers entries σ.log) {slot : Nat} {entry : LogEntry}
    (h : merged r.journal entries slot = some entry) :
    logAt (a.hist (a.nodes node).retained) slot = some entry := by
  have hown : (a.nodes node).log <+: a.hist (a.nodes node).retained :=
    (hinv.good node).serving (htracks.serving hne)
  have hother : σ.log <+: a.hist (a.nodes node).retained := by
    rw [← htracks.record.retained, ← hretained]
    exact (hinv.seen σ hσ).serving hserving
  exact merged_logAt (fun slot held _ hget => logAt_mono hown (htracks.reads slot held hget))
    (fun other hmem => logAt_mono hother (hoffers other hmem)) h

/-- The chunk a serving replica takes is more of its ballot's history, with the commit it
carries. -/
theorem extendChunk_refines (hinv : Inv g.setting a) (htracks : g.Tracks a sent node r)
    (hne : r.progress.status ≠ .viewChange) {σ : Snapshot Ballot LogEntry} (hσ : σ ∈ a.seen)
    (hretained : σ.retained = r.progress.retained) (hserving : σ.serving) {sender : Nat}
    {view : Ballot} {entries : List LogEntry} {through : Nat}
    (hoffers : Offers entries σ.log) {more : Bool} {folded : FoldedCommit}
    (hle : r.progress.committed ≤ folded.covered)
    (hknown : g.Known a (a.nodes node).retained folded.covered)
    (hconfig : folded.config = g.table) (hstopped : folded.stopped = false)
    (hbump : folded.bump = none) {mutation : JournalMutation} {log' : List LogEntry}
    (hmutates : Mutates (a.nodes node).log mutation log')
    (hlog : log' <+: a.hist (a.nodes node).retained)
    (hmore : (a.nodes node).log.length ≤ log'.length) (hlen : folded.covered ≤ log'.length)
    (hstatus : r.progress.status = .normal ∨
      (r.progress.status = .joining ∧ log'.length = folded.covered))
    (haccepted : (if r.bootAcquisition view then max r.progress.accepted folded.covered
      else max r.progress.accepted through) = log'.length)
    {kind : InputKind} {plan : PlannedTransition}
    (h : r.installChunk sender view entries through more folded mutation kind = .ok plan) :
    g.Refines a sent node r plan := by
  have hr := htracks.record
  have hcurrent := htracks.serving hne
  have hown : (a.nodes node).log <+: a.hist (a.nodes node).retained :=
    (hinv.good node).serving hcurrent
  have hgrown : (a.nodes node).log <+: log' :=
    List.prefix_of_prefix_length_le hown hlog hmore
  obtain ⟨applied, applies, asks, hcandidate, happlies, hjournal, heffects, hcounts, hoks,
    hasks⟩ := installChunk_ok h hstopped hbump log'.length haccepted
  have hstep : Step g.setting a (a.move node { a.nodes node with log := log' }) :=
    .extend node log' hcurrent hgrown hlog
  obtain ⟨hinv₁, hgrows₁⟩ := hinv.step hstep
  rw [hconfig] at hcandidate
  refine commit_refines hinv₁ hgrows₁
    ((Advances.refl g node a).tail hstep (move_others node _)) htracks hne log' (move_self _ _)
    hle hlen (hknown.mono hgrows₁) hstatus hcandidate (hjournal ▸ hmutates) hcounts
    (fun ok hok => ?_) fun a₂ hinv₂ hgrows₂ hnode effect hmem => ?_
  · rw [hoks] at hok
    cases hok
  · rw [heffects] at hmem
    rcases List.mem_append.mp hmem with hmem | hmem
    · unfold Replica.chunkApplies at happlies
      split at happlies
      · refine applies_effective hinv₂ happlies (fun slot entry _ hhigh hentry => ?_)
          (by rw [hnode]) effect hmem
        rw [merged_filter hhigh] at hentry
        rw [hnode, segment_logAt hlog (hhigh.trans hlen)]
        exact chunk_reads hinv htracks hne hσ hretained hserving hoffers hentry
      · cases happlies
        cases hmem
    · obtain ⟨fetched, recipient, start, rfl⟩ := hasks effect hmem
      exact fetch_effective fetched recipient start

theorem chunkCommit_bounds (r : Replica SegmentedLog) (view : Ballot) (committed accepted : Nat) :
    r.progress.committed ≤ r.chunkCommit view committed accepted ∧
      r.chunkCommit view committed accepted ≤ max r.progress.committed (min committed accepted) := by
  unfold Replica.chunkCommit
  split
  · have hcap : (r.bootCap.map (min committed)).getD committed ≤ committed := by
      cases r.bootCap with
      | none => exact Nat.le_refl _
      | some cap => exact Nat.min_le_left _ _
    omega
  · split
    · omega
    · omega

/-- The chunk a replica takes that serves its ballot, or is still where it booted. -/
theorem servingChunk_refines (hinv : Inv g.setting a) (htracks : g.Tracks a sent node r)
    (hne : r.progress.status ≠ .viewChange) {σ : Snapshot Ballot LogEntry} (hσ : σ ∈ a.seen)
    (hretained : σ.retained = r.progress.retained) (hserving : σ.serving) {sender : Nat}
    {view : Ballot}
    (hboot : r.progress.status = .normal ∨ view = r.progress.current)
    {entries : List LogEntry} {through committed : Nat} (hoffers : Offers entries σ.log)
    (hshaped : Shaped entries through) (hcommitted : committed ≤ σ.committed)
    (hmore : r.progress.accepted < through) {whole : JournalMutation}
    (hcheck : r.checkSuffix entries through committed Slot.none = .install whole)
    {more : Bool} {folded : FoldedCommit} (hle : r.progress.committed ≤ folded.covered)
    (hbound : folded.covered ≤ max r.progress.committed (min committed through))
    (hconfig : folded.config = g.table) (hstopped : folded.stopped = false)
    (hbump : folded.bump = none) {mutation : JournalMutation}
    (hverdict : r.chunkVerdict view entries through committed folded.covered whole =
      .install mutation)
    {kind : InputKind} {plan : PlannedTransition}
    (h : r.installChunk sender view entries through more folded mutation kind = .ok plan) :
    g.Refines a sent node r plan := by
  have hr := htracks.record
  have hcurrent := htracks.serving hne
  have hown : (a.nodes node).log <+: a.hist (a.nodes node).retained :=
    (hinv.good node).serving hcurrent
  have hordered := r.progress.committed_le_accepted
  have hknown : g.Known a (a.nodes node).retained folded.covered := by
    have hother : g.Known a (a.nodes node).retained σ.committed := by
      intro s hs
      obtain ⟨b, hb, hchosen, -⟩ := (hinv.seen σ hσ).committed s hs
      rw [hretained, hr.retained] at hb
      exact ⟨b, hb, hchosen⟩
    exact (known_max hinv htracks hother).le (le_refl _) (by omega)
  -- Still at the boot fence: all of the node's log is committed.
  have hjoining : r.bootAcquisition view = true → r.progress.status = .joining ∧
      r.progress.accepted = r.progress.committed := by
    intro hacquires
    unfold Replica.bootAcquisition at hacquires
    rw [Bool.and_eq_true] at hacquires
    have hstatus := Replica.isBoot_ne (Replica.bootFenced_isBoot hacquires.2)
    rcases hr.status with ⟨hnormal, -⟩ | ⟨hfenced, -⟩ | ⟨hjoining, -, heq⟩
    · exact absurd hnormal hstatus.1
    · exact absurd hfenced hstatus.2
    · exact ⟨hjoining, heq⟩
  rcases Replica.chunkVerdict_install hverdict with ⟨hwholly, rfl⟩ | ⟨hacquires, hshort, hpart⟩
  · obtain ⟨log', hmutates, hlen, hlog⟩ :=
      extended_log hinv htracks hne hσ hretained hserving hoffers hshaped hcheck
    by_cases hacquires : r.bootAcquisition view = true
    · have hshort : ¬folded.covered < through := fun hshort => hwholly ⟨hacquires, hshort⟩
      obtain ⟨hjoining, hcommitted⟩ := hjoining hacquires
      refine extendChunk_refines hinv htracks hne hσ hretained hserving hoffers hle hknown
        hconfig hstopped hbump hmutates hlog (by rw [← hr.accepted]; omega) (by omega)
        (Or.inr ⟨hjoining, by omega⟩) ?_ h
      rw [hacquires, if_pos rfl]
      omega
    · have hnormal : r.progress.status = .normal := by
        rcases hboot with hnormal | hview
        · exact hnormal
        · rcases hr.status with ⟨hnormal, -⟩ | ⟨hfenced, -⟩ | ⟨hjoining, -, -⟩
          · exact hnormal
          · exact absurd hfenced hne
          · refine absurd ?_ hacquires
            unfold Replica.bootAcquisition Replica.bootFenced
            rw [hview, hjoining, hr.current, hr.retained, hcurrent]
            simp [Status.isBoot]
      refine extendChunk_refines hinv htracks hne hσ hretained hserving hoffers hle hknown
        hconfig hstopped hbump hmutates hlog (by rw [← hr.accepted]; omega) (by omega)
        (Or.inl hnormal) ?_ h
      rw [if_neg hacquires]
      omega
  · obtain ⟨hjoining, hcommitted⟩ := hjoining hacquires
    obtain ⟨hpos, -, hrun, hend⟩ := firstSlot_of_shaped hshaped
    unfold Replica.truncatedMutation at hpart
    simp only at hpart
    split at hpart
    · -- Nothing of the chunk is committed, so nothing is taken.
      rename_i hempty
      cases hpart
      obtain ⟨-, -, -, hnear, -⟩ :=
        checkSuffix_spliced htracks.reads hr.accepted hoffers hshaped hcheck
      have hstays : folded.covered ≤ r.progress.accepted := by
        by_contra hbeyond
        have hin := hrun.entryAt_mem (firstSlot entries through) (Nat.le_refl _) (by
          rw [hr.accepted] at hmore
          omega)
        obtain ⟨entry, hmem, hslot, -⟩ := hin
        rw [List.isEmpty_iff, List.filter_eq_nil_iff] at hempty
        have hlarge := hempty entry hmem
        rw [decide_eq_true_eq, hslot] at hlarge
        rw [hr.accepted] at hbeyond
        omega
      refine extendChunk_refines hinv htracks hne hσ hretained hserving hoffers hle hknown
        hconfig hstopped hbump (show Mutates (a.nodes node).log .none (a.nodes node).log from rfl)
        hown (Nat.le_refl _) (by rw [← hr.accepted]; exact hstays) (Or.inr ⟨hjoining, ?_⟩) ?_ h
      · rw [← hr.accepted]
        omega
      · rw [hacquires, if_pos rfl, ← hr.accepted]
        omega
    · rename_i hempty
      have hfirst : firstSlot entries through ≤ folded.covered := by
        rw [List.isEmpty_iff, List.filter_eq_nil_iff] at hempty
        by_contra hbeyond
        refine hempty fun entry hmem => ?_
        have := hrun.mem_slot hmem
        rw [decide_eq_true_eq]
        omega
      obtain ⟨hshaped', -⟩ := filter_shaped hshaped hshort.le hfirst
      obtain ⟨log'', hmutates', hlen', hlog'⟩ := extended_log hinv htracks hne hσ hretained
        hserving (fun entry hmem => hoffers entry (List.mem_filter.mp hmem).1) hshaped' hpart
      have hgrown : (a.nodes node).log.length ≤ folded.covered := by
        rw [← hr.accepted]
        omega
      refine extendChunk_refines hinv htracks hne hσ hretained hserving hoffers hle hknown
        hconfig hstopped hbump hmutates' hlog' (hlen'.symm ▸ hgrown) hlen'.ge
        (Or.inr ⟨hjoining, hlen'⟩) ?_ h
      rw [hacquires, if_pos rfl, hlen', hr.accepted]
      omega

/-- **A chunk that fits** is a move of its node. -/
theorem planNewState_refines (hinv : Inv g.setting a) (htracks : g.Tracks a sent node r)
    {e : Envelope} (hok : g.MessageOk a e) {entries : List LogEntry} {through committed : Nat}
    {more : Bool} (hbody : e.message.body = .newState entries through committed more)
    (hfits : r.chunkQualified e.sender e.message.header.view = true →
      r.progress.accepted < through → ChunkFits r e.origin e.message.header.view)
    {kind : InputKind} {plan : PlannedTransition}
    (h : r.planNewState e.sender e.message entries through committed more kind = .ok plan)
    (hfault : plan.fault = none) : g.Refines a sent node r plan := by
  have hr := htracks.record
  have hok := hok.2
  rw [hbody] at hok
  obtain ⟨σ, hσ, hretained, hserving, hoffers, hshaped, hcommitted⟩ := hok
  cases Replica.planNewState_cases h with
  | dropped _ hdrop => exact dropPlan_refines htracks hdrop
  | breached hbreach => exact absurd hfault (breachPlan_fault hbreach)
  | closed emitted hemit hplan =>
    obtain ⟨candidate, hsame, rfl⟩ := Replica.emitPlan_ok hemit
    subst hplan
    exact htracks.refines_same hsame rfl rfl htracks.offered ⟨fun hne => absurd rfl hne, rfl, rfl⟩
      rfl (fun _ hok => nomatch hok) fun _ hmem => nomatch hmem
  | installed record _ _ _ hqualified _ hmore whole hcheck folded hfold mutation hverdict h =>
    have hfit := hfits hqualified hmore
    unfold ChunkFits at hfit
    obtain ⟨hlow, hhigh⟩ := chunkCommit_bounds r e.message.header.view committed
      (max r.progress.accepted through)
    rw [max_eq_right hmore.le] at hlow hhigh hfold
    by_cases hfenced : r.progress.status = .viewChange
    · -- A fenced replica commits nothing.
      rw [if_pos hfenced] at hfit
      have hboot : r.bootAcquisition e.message.header.view = false := by
        unfold Replica.bootAcquisition Replica.bootFenced
        rw [hfenced]
        simp [Status.isBoot]
      have hstays : r.chunkCommit e.message.header.view committed through =
          r.progress.committed := by
        unfold Replica.chunkCommit
        rw [hboot, hfenced]
        simp
      obtain ⟨-, rfl⟩ := (Replica.chunkVerdict_install hverdict).resolve_right
        fun hcut => by simp [hboot] at hcut
      rw [hstays] at hfold
      rcases @Replica.foldCommitted_operations _ _ r entries r.progress.committed
        r.progress.committed true (fun slot entry hlt hle _ =>
          absurd hlt (not_lt.mpr hle)) with ⟨slot, hfold'⟩ | hfold'
      · rw [hfold'] at hfold
        cases hfold
      · rw [hfold', max_self] at hfold
        cases hfold
        exact adoptChunk_refines hinv htracks hfenced hσ (hretained.symm ▸ hfit) hoffers hshaped
          hmore hcheck rfl hr.config rfl rfl h
    · rw [if_neg hfenced] at hfit
      obtain ⟨hnormal, hsame, hboot⟩ := hfit
      have hσserving := hserving hnormal
      have hσretained := hretained.trans hsame
      rcases @Replica.foldCommitted_operations _ _ r entries r.progress.committed
        (r.chunkCommit e.message.header.view committed through) true
        (fun slot entry hlt _ hentry => hist_operation hinv
          (chunk_reads hinv htracks hfenced hσ hσretained hσserving hoffers hentry)
          (by have := hr.genesis; omega)) with ⟨slot, hfold'⟩ | hfold'
      · rw [hfold'] at hfold
        cases hfold
      · rw [hfold'] at hfold
        cases hfold
        exact servingChunk_refines hinv htracks hfenced hσ hσretained hσserving hboot hoffers
          hshaped hcommitted hmore hcheck (le_max_left _ _) (max_le (le_max_left _ _) hhigh)
          hr.config rfl rfl hverdict h

end Genesis

end UvrrCore
