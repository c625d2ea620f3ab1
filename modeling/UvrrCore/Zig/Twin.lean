import UvrrCore.Lifecycle
import UvrrCore.Zig.MarkerStore

/-!
# The two boot gates

The data file and the pure gate read the same four copies. The one takes the working copyset by the
sequence numbers and votes over it; the other has no sequence numbers and votes over all four,
by identity. `twin_verdict_eq_iff` says when they come to one verdict, in every history whose
crashes leave whole copies.

* `Behind` is what such a history adds to the shape of the copies: copies of one sequence number are
  alike with their markers, and the identities descend as the sequence numbers do.
* `Outvoted` is the one mixture where both read a quorum and disagree: the last two copies say
  `stopped` behind two that do not, under one identity.
-/

namespace UvrrCore.Zig

/-! ### The copies and the verdicts of the pure gate -/

/-- The markers of the pure gate. An unnamed byte vouches for nothing. -/
def Marker.twin : Marker → UvrrCore.Marker
  | .stopping => .stopping
  | .stopped => .stopped
  | .restarting => .restarting
  | .joining => .joining
  | .unnamed _ => .joining

def RestartClass.twin : RestartClass → UvrrCore.RestartClass
  | .stopped => .stopped
  | .notStopped => .notStopped

def SuperBlockHeader.twin (copy : SuperBlockHeader) : UvrrCore.CopyState :=
  ⟨copy.covered.incarnation, (Marker.ofByte copy.marker).twin⟩

/-- The pairs of the copies. A slot behind the last copy is blank. -/
def twinCopies (copies : List SuperBlockHeader) : SuperblockCopies where
  copies slot :=
    match copies[slot.val]? with
    | some copy => copy.twin
    | none => ⟨0, .joining⟩

/-- The verdict of a boot of the data file. -/
def bootVerdict (digest : Covered → Nat) (copies : List SuperBlockHeader) : Option Verdict :=
  match Quorums.working digest (readCopies copies) with
  | .error _ => none
  | .ok working =>
    classify (cohortView digest working.header.covered.sequence (readCopies copies))

/-- The two gates come to one verdict. -/
def Agree (digest : Covered → Nat) (copies : List SuperBlockHeader) : Prop :=
  (bootVerdict digest copies).map (fun verdict => (verdict.restartClass.twin, verdict.identity)) =
    (twinCopies copies).classify

variable {digest : Covered → Nat} {copies : List SuperBlockHeader}

theorem twinCopies_toList (hlength : copies.length = superblockCopies) :
    (twinCopies copies).toList = copies.map SuperBlockHeader.twin := by
  refine List.ext_getElem (by simp [SuperblockCopies.toList, hlength]) fun slot _ hslot => ?_
  rw [List.length_map] at hslot
  simp only [SuperblockCopies.toList, twinCopies, List.getElem_ofFn, List.getElem_map,
    List.getElem?_eq_getElem hslot]

theorem Marker.twin_eq_stopped {marker : Marker} : marker.twin = .stopped ↔ marker = .stopped := by
  cases marker <;> simp [twin]

/-- The copies of an identity, and those of them that are stopped. -/
theorem countP_carries (hlength : copies.length = superblockCopies) (identity : Nat) :
    (twinCopies copies).toList.countP (SuperblockCopies.carries identity) =
      copies.countP fun copy => copy.covered.incarnation == identity := by
  rw [twinCopies_toList hlength, List.countP_map]
  rfl

theorem stoppedCopies_twin (hlength : copies.length = superblockCopies) (identity : Nat) :
    (twinCopies copies).stoppedCopies identity = copies.countP fun copy =>
      copy.covered.incarnation == identity && decide (Marker.ofByte copy.marker = .stopped) := by
  rw [SuperblockCopies.stoppedCopies, twinCopies_toList hlength, List.countP_map]
  refine List.countP_congr fun copy _ => ?_
  simp only [Function.comp, SuperblockCopies.carriesStopped, SuperBlockHeader.twin,
    Bool.and_eq_true, beq_iff_eq, decide_eq_true_eq, Marker.twin_eq_stopped]

/-! ### Whole copies -/

/-- What holds of a copy `b` behind a copy `a` when no crash has torn one. -/
structure Behind (a b : SuperBlockHeader) : Prop where
  same : a.covered.sequence = b.covered.sequence → a.covered = b.covered ∧ a.marker = b.marker
  older : b.covered.incarnation ≤ a.covered.incarnation
  /-- What is stopped was written over four copies of one header. -/
  stopped : Marker.ofByte a.marker = .stopped → b.covered.sequence < a.covered.sequence →
    b.covered.sequence + 1 = a.covered.sequence

/-- The copies of a history whose crashes leave whole copies. -/
structure Plain (digest : Covered → Nat) (copies : List SuperBlockHeader) : Prop where
  whole : ∀ a ∈ copies, a.validChecksum digest = true
  behind : copies.Pairwise Behind

def FileEvent.isTorn : FileEvent → Bool
  | .cutOpen .torn | .cutStop _ .torn => true
  | _ => false

/-- No crash has torn a copy. -/
def Untorn (trace : List FileEvent) : Prop := ∀ event ∈ trace, event.isTorn = false

theorem plain_written {header : SuperBlockHeader} (hvalid : header.validChecksum digest = true)
    (count : Nat) : Plain digest (written header count) := by
  refine ⟨fun a ha => (written_whole ha).trans hvalid, ?_⟩
  refine List.pairwise_of_forall_mem_list fun a ha b hb => ?_
  obtain ⟨slot, rfl⟩ := mem_written ha
  obtain ⟨other, rfl⟩ := mem_written hb
  exact ⟨fun _ => ⟨rfl, rfl⟩, Nat.le_refl _, fun _ hlt => absurd hlt (Nat.lt_irrefl _)⟩

/-- Behind the first copy nothing is newer than the working header. -/
theorem Plain.not_newer {first b : SuperBlockHeader} {others : List SuperBlockHeader}
    (h : Plain digest (first :: others)) (hdescends : Descends digest (first :: others))
    (hb : Working digest (first :: others) b) :
    ∀ y ∈ others, y.covered.sequence ≤ b.covered.sequence := by
  intro y hy
  by_contra hnewer
  have hmem : y ∈ first :: others := List.mem_cons_of_mem _ hy
  have hfirst := h.whole first List.mem_cons_self
  have hyvalid := h.whole y hmem
  have hordered := ((List.pairwise_cons.mp hdescends).1 y hy hfirst hyvalid).ordered
  have hgap := hb.gap first List.mem_cons_self hfirst
  -- So the first copy is of its header, the header is on two copies, and `b` is not the last.
  have hsame := ((List.pairwise_cons.mp h.behind).1 y hy).same (by omega)
  have hheld : openThreshold ≤ held digest (first :: others) y.covered := by
    have hpos := held_pos hy hyvalid
    rw [held_cons, hsame.1, hfirst, beq_self_eq_true, Bool.and_self, if_pos rfl]
    exact Nat.succ_le_succ hpos
  exact hnewer (hb.last y hmem hyvalid hheld)

/-- Of copies that are not newer than the working header none has a higher incarnation. -/
theorem Plain.incarnation_le (h : Plain digest copies) (hdescends : Descends digest copies)
    {b : SuperBlockHeader} (hb : Working digest copies b) {y : SuperBlockHeader} (hy : y ∈ copies)
    (hle : y.covered.sequence ≤ b.covered.sequence) :
    y.covered.incarnation ≤ b.covered.incarnation := by
  obtain ⟨copy, hcopy, slot, rfl⟩ := hb.mem
  have hboth : copies.Pairwise fun a b =>
      (b.covered.sequence ≤ a.covered.sequence ∧ Behind a b) := by
    refine (h.behind.and hdescends).imp_of_mem fun ha hb hab => ?_
    exact ⟨(hab.2 (h.whole _ ha) (h.whole _ hb)).ordered, hab.1⟩
  have hpair : copies.Pairwise fun a b =>
      (a.covered.sequence ≤ b.covered.sequence →
        a.covered.incarnation ≤ b.covered.incarnation) ∧
      (b.covered.sequence ≤ a.covered.sequence →
        b.covered.incarnation ≤ a.covered.incarnation) := by
    refine hboth.imp fun {a b} hab => ⟨fun hseq => ?_, fun _ => hab.2.older⟩
    rw [(hab.2.same (Nat.le_antisymm hseq hab.1)).1]
  have hsymm : Std.Symm fun a b : SuperBlockHeader =>
      (a.covered.sequence ≤ b.covered.sequence →
        a.covered.incarnation ≤ b.covered.incarnation) ∧
      (b.covered.sequence ≤ a.covered.sequence →
        b.covered.incarnation ≤ a.covered.incarnation) := ⟨fun _ _ hab => hab.symm⟩
  have hall := List.Pairwise.forall_of_forall
    (fun a _ => ⟨fun _ => Nat.le_refl a.covered.incarnation, fun _ => Nat.le_refl _⟩) hpair
  exact (hall hy hcopy).1 hle

/-- **A write that is cut between two copies** leaves plain copies. -/
theorem Plain.cut (h : Plain digest copies) (hdescends : Descends digest copies)
    {b : SuperBlockHeader} (hb : Working digest copies b) {incarnation : Nat} {marker : Marker}
    (hincarnation : b.covered.incarnation ≤ incarnation)
    (hstopped : Marker.ofByte marker.toByte = .stopped →
      ∀ y ∈ copies, y.covered.sequence = b.covered.sequence)
    {left : Left} {copies' : List SuperBlockHeader}
    (hcut : Cut digest (b.advance digest incarnation marker) copies left copies')
    (huntorn : left ≠ .torn) : Plain digest copies' := by
  -- The header in front of copies that it is newer than.
  have hfront : ∀ count, ∀ kept : List SuperBlockHeader, kept.Sublist copies →
      (∀ y ∈ kept, y.covered.sequence ≤ b.covered.sequence) →
      Plain digest (written (b.advance digest incarnation marker) count ++ kept) := by
    intro count kept hkept hle
    have hnew : Plain digest (written (b.advance digest incarnation marker) count) :=
      plain_written (advance_validChecksum b incarnation marker) count
    refine ⟨fun a ha => ?_, List.pairwise_append.mpr ⟨hnew.behind, h.behind.sublist hkept, ?_⟩⟩
    · rcases List.mem_append.mp ha with ha | ha
      · exact hnew.whole a ha
      · exact h.whole a (hkept.subset ha)
    · intro a ha y hy
      obtain ⟨slot, rfl⟩ := mem_written ha
      have hlt : y.covered.sequence < b.covered.sequence + 1 := Nat.lt_succ_of_le (hle y hy)
      refine ⟨fun heq => absurd heq (Nat.ne_of_gt hlt), ?_, fun hmarker _ => ?_⟩
      · exact Nat.le_trans (h.incarnation_le hdescends hb (hkept.subset hy) (hle y hy)) hincarnation
      · exact congrArg (· + 1) (hstopped hmarker y (hkept.subset hy))
  cases hcut with
  | @old front back copy =>
    cases front with
    | nil => exact h
    | cons first front =>
      have hnewer := h.not_newer hdescends hb
      exact hfront _ _ (List.sublist_append_right _ _) fun y hy =>
        hnewer y (List.mem_append_right _ hy)
  | @new front back copy =>
    have hone : written (b.advance digest incarnation marker) front.length ++
        (b.advance digest incarnation marker).stamp front.length :: back =
        written (b.advance digest incarnation marker) (front.length + 1) ++ back := by
      rw [written, written, List.range_succ, List.map_append, List.append_assoc]
      rfl
    rw [hone]
    refine hfront _ _ ((List.sublist_cons_self _ _).trans (List.sublist_append_right _ _)) ?_
    cases front with
    | nil => exact h.not_newer hdescends hb
    | cons first front =>
      have hnewer := h.not_newer hdescends hb
      exact fun y hy => hnewer y (List.mem_append_right _ (List.mem_cons_of_mem _ hy))
  | torn => exact absurd rfl huntorn

section Steps

variable {digests : FileDigests} {formatted : Nat} {f f' : DataFile}

/-- **One step** without a torn copy. -/
theorem FileStep.plain (hinj : Function.Injective digests.header) (hstep : FileStep digests f f')
    (hsound : f.Sound digests formatted) (huntorn : Untorn f'.trace)
    (h : Plain digests.header f.copies) : Plain digests.header f'.copies := by
  cases hstep with
  | opened hopens =>
    obtain ⟨decision, hstage, -, -⟩ := DataFile.opens_ok hopens
    obtain ⟨b, -, rfl, -⟩ := stageOpen_ok hinj hsound.shaped hstage
    exact plain_written (advance_validChecksum _ _ _) _
  | refused hstage hreturns => exact h
  | unloaded hstage hload =>
    obtain ⟨b, -, rfl, -⟩ := stageOpen_ok hinj hsound.shaped hstage
    exact plain_written (advance_validChecksum _ _ _) _
  | stopped hworking hadvance =>
    unfold advanceMarker at hadvance
    split at hadvance
    · cases hadvance
      exact plain_written (advance_validChecksum _ _ _) _
    · cases hadvance
  | died => exact h
  | cutOpen hstage hcut =>
    obtain ⟨b, hb, rfl, hdecision⟩ := stageOpen_ok hinj hsound.shaped hstage
    refine h.cut hsound.shaped.descends hb (RestartDecision.newer hdecision)
      (fun hstopped => absurd hstopped (RestartDecision.ne_stopped _)) hcut ?_
    rintro rfl
    exact absurd (huntorn _ List.mem_cons_self) (by decide)
  | @cutStop working header stop left copies hworking hadvance hcut =>
    obtain ⟨hb, -⟩ := hsound.live_working hworking
    obtain ⟨-, -, hcopies⟩ := hsound.live working hworking
    unfold advanceMarker at hadvance
    split at hadvance
    · cases hadvance
      refine h.cut hsound.shaped.descends hb (Nat.le_refl _) (fun _ y hy => ?_) hcut ?_
      · rw [hcopies] at hy
        rw [(written_same hy).1]
      · rintro rfl
        have htorn := huntorn _ List.mem_cons_self
        cases htorn
    · cases hadvance

theorem Untorn.tail {event : FileEvent} {trace : List FileEvent} (h : Untorn (event :: trace)) :
    Untorn trace := fun other hother => h other (List.mem_cons_of_mem _ hother)

theorem FileStep.untorn (hstep : FileStep digests f f') (h : Untorn f'.trace) : Untorn f.trace := by
  cases hstep with
  | opened hopens => exact h.tail
  | refused hstage hreturns => exact h.tail
  | unloaded hstage hload => exact h.tail
  | stopped hworking hadvance => exact h.tail
  | died => exact h.tail
  | cutOpen hstage hcut => exact h.tail
  | cutStop hworking hadvance hcut => exact h.tail

/-- **Every history** without a torn copy. -/
theorem FileRun.plain (hinj : Function.Injective digests.header) (h : FileRun digests f f')
    (hstart : f.Sound digests formatted) (hplain : Plain digests.header f.copies)
    (huntorn : Untorn f'.trace) : Plain digests.header f'.copies := by
  induction h with
  | start => exact hplain
  | step hrun hstep ih =>
    exact hstep.plain hinj (hrun.sound hinj hstart) huntorn (ih (hstep.untorn huntorn))

end Steps

/-! ### Where the gates part -/

/-- The last two copies say `stopped`, behind two of a later header that do not, under one
identity. -/
def Outvoted (copies : List SuperBlockHeader) : Prop :=
  ∃ a b c d, copies = [a, b, c, d] ∧ a.covered.sequence = b.covered.sequence ∧
    c.covered.sequence < b.covered.sequence ∧ Marker.ofByte b.marker ≠ .stopped ∧
    Marker.ofByte c.marker = .stopped ∧ Marker.ofByte d.marker = .stopped ∧
    b.covered.incarnation = c.covered.incarnation ∧ b.covered.incarnation = d.covered.incarnation

/-- Two copies of one sequence number have one marker. -/
theorem Plain.marker_eq (h : Plain digest copies) {a b : SuperBlockHeader} (ha : a ∈ copies)
    (hb : b ∈ copies) (hseq : a.covered.sequence = b.covered.sequence) : a.marker = b.marker := by
  have hsymm : Std.Symm fun a b : SuperBlockHeader =>
      a.covered.sequence = b.covered.sequence → a.marker = b.marker :=
    ⟨fun a b hab heq => (hab heq.symm).symm⟩
  have hall := List.Pairwise.forall_of_forall
    (fun (a : SuperBlockHeader) _ _ => (rfl : a.marker = a.marker))
    (h.behind.imp fun hab heq => (hab.same heq).2)
  exact hall ha hb hseq

/-- The copies of the working header are all stopped, or none of them is. -/
theorem Plain.stoppedVotes (h : Plain digest copies) {w : SuperBlockHeader}
    (hw : Working digest copies w) :
    (openThreshold ≤ Zig.stoppedVotes digest w.covered.sequence copies ∧
        ∀ y ∈ copies, y.covered.sequence = w.covered.sequence → Marker.ofByte y.marker = .stopped) ∨
      (Zig.stoppedVotes digest w.covered.sequence copies = 0 ∧
        ∀ y ∈ copies, y.covered.sequence = w.covered.sequence →
          Marker.ofByte y.marker ≠ .stopped) := by
  obtain ⟨copy, hcopy, slot, rfl⟩ := hw.mem
  have hmarker : ∀ y ∈ copies, y.covered.sequence = copy.covered.sequence →
      y.marker = copy.marker := fun y hy hseq => h.marker_eq hy hcopy hseq
  by_cases hstopped : Marker.ofByte copy.marker = .stopped
  · refine Or.inl ⟨Nat.le_trans hw.held (List.countP_mono_left fun y hy hvote => ?_),
      fun y hy hseq => ?_⟩
    · rw [Bool.and_eq_true, beq_iff_eq] at hvote
      have hcovered : y.covered = copy.covered := hvote.2
      simp only [hvote.1, hcovered, hmarker y hy (congrArg Covered.sequence hcovered), hstopped,
        SuperBlockHeader.stamp_covered, beq_self_eq_true, decide_true, Bool.and_self]
    · rw [hmarker y hy hseq]
      exact hstopped
  · refine Or.inr ⟨List.countP_eq_zero.mpr fun y hy hvote => ?_, fun y hy hseq => ?_⟩
    · simp only [Bool.and_eq_true, beq_iff_eq, decide_eq_true_eq] at hvote
      rw [hmarker y hy hvote.1.2] at hvote
      exact hstopped hvote.2
    · rw [hmarker y hy hseq]
      exact hstopped

theorem exists_four (hlength : copies.length = superblockCopies) :
    ∃ a b c d, copies = [a, b, c, d] := by
  obtain ⟨a, rest, rfl⟩ := List.exists_cons_of_length_eq_add_one hlength
  obtain ⟨b, c, d, rfl⟩ := List.length_eq_three.mp (Nat.succ.inj hlength)
  exact ⟨a, b, c, d, rfl⟩

/-- **The mixture where the votes differ**: the one gate does not see the two copies that the other
takes its verdict from. -/
theorem outvoted_iff (h : Plain digest copies) (hshaped : Shaped digest copies)
    {w : SuperBlockHeader} (hw : Working digest copies w) :
    Outvoted copies ↔ openThreshold ≤ (twinCopies copies).stoppedCopies w.covered.incarnation ∧
      ¬openThreshold ≤ Zig.stoppedVotes digest w.covered.sequence copies := by
  rw [stoppedCopies_twin hshaped.length]
  have hsame := fun y hy => hw.same hshaped y hy (h.whole y hy)
  obtain ⟨copy, hcopy, slot, hstamp⟩ := hw.mem
  have hcopySeq : copy.covered.sequence = w.covered.sequence := by rw [hstamp]; rfl
  obtain ⟨a, b, c, d, rfl⟩ := exists_four hshaped.length
  have hordered : [a, b, c, d].Pairwise fun x y => y.covered.sequence ≤ x.covered.sequence :=
    hshaped.descends.imp_of_mem fun hx hy hxy => (hxy (h.whole _ hx) (h.whole _ hy)).ordered
  obtain ⟨hafter, hordered⟩ := List.pairwise_cons.mp hordered
  obtain ⟨hbafter, hordered⟩ := List.pairwise_cons.mp hordered
  obtain ⟨hcafter, -⟩ := List.pairwise_cons.mp hordered
  have hb : b ∈ [b, c, d] := List.mem_cons_self
  have hc : c ∈ [b, c, d] := List.mem_cons_of_mem _ List.mem_cons_self
  have hd : d ∈ [b, c, d] := List.mem_cons_of_mem _ (List.mem_cons_of_mem _ List.mem_cons_self)
  have hab := hafter b hb
  have hbc := hbafter c List.mem_cons_self
  have hcd := hcafter d List.mem_cons_self
  obtain ⟨habehind, -⟩ := List.pairwise_cons.mp h.behind
  constructor
  · rintro ⟨_, _, _, _, hfour, hseq, hlater, hbmark, hcmark, hdmark, hbc', hbd'⟩
    cases hfour
    have hheld : openThreshold ≤ held digest [a, b, c, d] a.covered := by
      have hcovered := ((habehind b hb).same hseq).1
      simp only [held_cons, h.whole a List.mem_cons_self,
        h.whole b (List.mem_cons_of_mem _ hb), ← hcovered, beq_self_eq_true, Bool.and_self, if_true]
      exact Nat.le_add_left _ _
    have hlast := hw.last a List.mem_cons_self (h.whole a List.mem_cons_self) hheld
    have hfirst : w.covered.sequence ≤ a.covered.sequence := by
      rw [← hcopySeq]
      rcases List.mem_cons.mp hcopy with rfl | hcopy
      · exact Nat.le_refl _
      · exact hafter copy hcopy
    have hbw : b.covered.sequence = w.covered.sequence := by omega
    have hincarnation := congrArg Covered.incarnation (hsame b (List.mem_cons_of_mem _ hb) hbw)
    rcases h.stoppedVotes hw with ⟨-, hall⟩ | ⟨hnone, -⟩
    · exact absurd (hall b (List.mem_cons_of_mem _ hb) hbw) hbmark
    · rw [hnone]
      refine ⟨?_, by decide⟩
      have hlast : [c, d].countP (fun copy => copy.covered.incarnation == w.covered.incarnation &&
          decide (Marker.ofByte copy.marker = .stopped)) = [c, d].length := by
        refine List.countP_eq_length.mpr (List.forall_mem_cons.mpr ⟨?_, fun y hy => ?_⟩)
        · simp only [← hincarnation, ← hbc', hcmark, beq_self_eq_true, decide_true, Bool.and_self]
        · rw [List.mem_singleton.mp hy]
          simp only [← hincarnation, ← hbd', hdmark, beq_self_eq_true, decide_true, Bool.and_self]
      have hsub : [c, d].Sublist [a, b, c, d] := List.sublist_append_right [a, b] [c, d]
      exact Nat.le_trans (Nat.le_of_eq hlast.symm) hsub.countP_le
  · rintro ⟨hstopped, hfew⟩
    rcases h.stoppedVotes hw with ⟨hmany, -⟩ | ⟨-, hnone⟩
    · exact absurd hmany hfew
    · have hnewer := h.not_newer hshaped.descends hw
      have hbw := hnewer b hb
      have hcw := hnewer c hc
      have hdw := hnewer d hd
      have hgap := hw.gap a List.mem_cons_self (h.whole a List.mem_cons_self)
      have hheld : 2 ≤ [a, b, c, d].countP fun y => y.covered.sequence == w.covered.sequence := by
        refine Nat.le_trans hw.held (List.countP_mono_left fun y _ hy => ?_)
        rw [Bool.and_eq_true, beq_iff_eq] at hy
        rw [hy.2, beq_self_eq_true]
      simp only [List.countP_cons, List.countP_nil, beq_iff_eq] at hheld
      have hbseq : b.covered.sequence = w.covered.sequence := by
        by_contra hne
        rw [if_neg hne, if_neg (by omega), if_neg (by omega)] at hheld
        split at hheld <;> omega
      have hbmark := hnone b (List.mem_cons_of_mem _ hb) hbseq
      -- A first copy that is stopped stands over copies of the working header only.
      have hamark : Marker.ofByte a.marker ≠ .stopped := by
        intro hamark
        have haseq : a.covered.sequence = w.covered.sequence + 1 := by
          have hne : a.covered.sequence ≠ w.covered.sequence := fun heq =>
            hnone a List.mem_cons_self heq hamark
          omega
        have hcseq := (habehind c hc).stopped hamark (by omega)
        have hdseq := (habehind d hd).stopped hamark (by omega)
        have hcmark := hnone c (List.mem_cons_of_mem _ hc) (by omega)
        have hdmark := hnone d (List.mem_cons_of_mem _ hd) (by omega)
        simp only [List.countP_cons, List.countP_nil, hbmark, hcmark, hdmark, decide_false,
          Bool.and_false, Bool.false_eq_true, if_false] at hstopped
        exact absurd hstopped (by split <;> decide)
      rw [List.countP_cons_of_neg (by simp [hamark]), List.countP_cons_of_neg (by simp [hbmark])]
        at hstopped
      have htwo : ([c, d] : List SuperBlockHeader).length ≤ _ := hstopped
      have hlast := List.countP_eq_length.mp (Nat.le_antisymm List.countP_le_length htwo)
      simp only [List.forall_mem_cons, Bool.and_eq_true, beq_iff_eq, decide_eq_true_eq] at hlast
      obtain ⟨⟨hcinc, hcmark⟩, ⟨hdinc, hdmark⟩, -⟩ := hlast
      have hcseq : c.covered.sequence < w.covered.sequence :=
        Nat.lt_of_le_of_ne hcw fun heq => hnone c (List.mem_cons_of_mem _ hc) heq hcmark
      have hincarnation := congrArg Covered.incarnation (hsame b (List.mem_cons_of_mem _ hb) hbseq)
      have haseq : a.covered.sequence = b.covered.sequence := by
        by_contra hne
        rw [if_neg (fun heq : c.covered.sequence = w.covered.sequence => by omega),
          if_neg (fun heq : d.covered.sequence = w.covered.sequence => by omega),
          if_neg (fun heq : a.covered.sequence = w.covered.sequence => by omega)] at hheld
        split at hheld <;> omega
      exact ⟨a, b, c, d, rfl, haseq, by omega, hbmark, hcmark, hdmark,
        hincarnation.trans hcinc.symm, hincarnation.trans hdinc.symm⟩

/-- The verdict of a boot of readable copies. -/
theorem bootVerdict_of_readable (hinj : Function.Injective digest) (hshaped : Shaped digest copies)
    (hreadable : Readable digest copies) :
    ∃ w, Working digest copies w ∧ bootVerdict digest copies =
      some ⟨if openThreshold ≤ Zig.stoppedVotes digest w.covered.sequence copies then .stopped
        else .notStopped, w.covered.incarnation⟩ := by
  obtain ⟨q, hq, hworking⟩ := working_of_readable hinj hshaped hreadable
  refine ⟨q.header, hworking, ?_⟩
  rw [bootVerdict, hq]
  simp only [cohortView_readCopies]
  exact classify_cohortView (hworking.same hshaped) hworking.held

/-- The verdict of the pure gate on the same copies: it resolves the same identity, unless that is
the blank one. -/
theorem Plain.classify_twin (h : Plain digest copies) (hshaped : Shaped digest copies)
    {w : SuperBlockHeader} (hw : Working digest copies w) (hid : w.covered.incarnation ≠ 0) :
    (twinCopies copies).classify = some (if openThreshold ≤
      (twinCopies copies).stoppedCopies w.covered.incarnation then .stopped else .notStopped,
        w.covered.incarnation) := by
  refine SuperblockCopies.classify_of_highest hid ?_ fun other habove => ?_
  · rw [countP_carries hshaped.length]
    refine Nat.le_trans hw.held (List.countP_mono_left fun y _ hy => ?_)
    rw [Bool.and_eq_true, beq_iff_eq] at hy
    rw [hy.2, beq_self_eq_true]
  · rw [countP_carries hshaped.length]
    obtain ⟨first, others, rfl⟩ := List.exists_cons_of_length_eq_add_one hshaped.length
    have hnone : others.countP (fun copy => copy.covered.incarnation == other) = 0 := by
      refine List.countP_eq_zero.mpr fun y hy heq => ?_
      have hle := h.incarnation_le hshaped.descends hw (List.mem_cons_of_mem _ hy)
        (h.not_newer hshaped.descends hw y hy)
      rw [beq_iff_eq.mp heq] at hle
      exact absurd habove (Nat.not_lt.mpr hle)
    rw [List.countP_cons, hnone]
    split <;> decide

theorem Working.unique (hshaped : Shaped digest copies) (hwhole : ∀ a ∈ copies,
    a.validChecksum digest = true) {w w' : SuperBlockHeader} (hw : Working digest copies w)
    (hw' : Working digest copies w') : w.covered = w'.covered := by
  obtain ⟨copy, hcopy, slot, rfl⟩ := hw.mem
  obtain ⟨other, hother, slot', rfl⟩ := hw'.mem
  have hle := hw'.last copy hcopy (hwhole copy hcopy) hw.held
  have hge := hw.last other hother (hwhole other hother) hw'.held
  exact hw'.same hshaped copy hcopy (hwhole copy hcopy) (Nat.le_antisymm hle hge)

/-- What the data file counts as stopped the pure gate counts too. -/
theorem Working.votes_le (hshaped : Shaped digest copies) {w : SuperBlockHeader}
    (hw : Working digest copies w) : Zig.stoppedVotes digest w.covered.sequence copies ≤
      (twinCopies copies).stoppedCopies w.covered.incarnation := by
  rw [stoppedCopies_twin hshaped.length]
  refine List.countP_mono_left fun y hy hvote => ?_
  simp only [Bool.and_eq_true, beq_iff_eq, decide_eq_true_eq] at hvote ⊢
  obtain ⟨⟨hvalid, hseq⟩, hstopped⟩ := hvote
  exact ⟨congrArg Covered.incarnation (hw.same hshaped y hy hvalid hseq), hstopped⟩

/-- **When the gates agree**, on plain copies. -/
theorem Plain.agree_iff (hinj : Function.Injective digest) (h : Plain digest copies)
    (hshaped : Shaped digest copies) :
    Agree digest copies ↔
      (∃ w, Working digest copies w ∧ w.covered.incarnation ≠ 0 ∧ ¬Outvoted copies) ∨
      (¬Readable digest copies ∧ ∀ identity, identity ≠ 0 →
        copies.countP (fun copy => copy.covered.incarnation == identity) < 2) := by
  unfold Agree
  by_cases hreadable : Readable digest copies
  · obtain ⟨w, hw, hverdict⟩ := bootVerdict_of_readable hinj hshaped hreadable
    rw [hverdict, Option.map_some]
    by_cases hid : w.covered.incarnation = 0
    · constructor
      · intro hagree
        exact absurd hid (SuperblockCopies.classify_eq_some hagree.symm).1
      · rintro (⟨w', hw', hid', -⟩ | ⟨hunreadable, -⟩)
        · rw [← hw.unique hshaped h.whole hw'] at hid'
          exact absurd hid hid'
        · exact absurd hreadable hunreadable
    · have hvotes := hw.votes_le hshaped
      have hparts := outvoted_iff h hshaped hw
      rw [h.classify_twin hshaped hw hid]
      constructor
      · intro hagree
        refine Or.inl ⟨w, hw, hid, fun houtvoted => ?_⟩
        obtain ⟨hstopped, hfew⟩ := hparts.mp houtvoted
        simp only [if_pos hstopped, if_neg hfew] at hagree
        cases hagree
      · rintro (⟨-, -, -, hnot⟩ | ⟨hunreadable, -⟩)
        · by_cases hmany : openThreshold ≤ Zig.stoppedVotes digest w.covered.sequence copies
          · simp only [if_pos hmany, if_pos (Nat.le_trans hmany hvotes)]
            rfl
          · have hfew : ¬openThreshold ≤ (twinCopies copies).stoppedCopies w.covered.incarnation :=
              fun hstopped => hnot (hparts.mpr ⟨hstopped, hmany⟩)
            simp only [if_neg hmany, if_neg hfew]
            rfl
        · exact absurd hreadable hunreadable
  · obtain ⟨error, hworking⟩ := working_of_not_readable hinj hshaped hreadable
    have hnone : bootVerdict digest copies = none := by rw [bootVerdict, hworking]
    rw [hnone, Option.map_none, eq_comm, SuperblockCopies.classify_eq_none]
    simp only [countP_carries hshaped.length]
    constructor
    · exact fun hfew => Or.inr ⟨hreadable, hfew⟩
    · rintro (⟨w, hw, -, -⟩ | ⟨-, hfew⟩)
      · obtain ⟨copy, hcopy, slot, rfl⟩ := hw.mem
        exact absurd ⟨copy, hcopy, hw.whole, hw.held, hw.gap⟩ hreadable
      · exact hfew

/-- **The two boot gates.** In every history of one data file whose crashes leave whole copies, the
verdict and the identity of the two gates are the same if and only if the copies are readable, the
working identity is no blank one and the last two copies do not outvote the working ones; or the
copies are not readable and no identity but the blank one is on two of them. -/
theorem twin_verdict_eq_iff {digests : FileDigests} (hinj : Function.Injective digests.header)
    {cluster incarnation : Nat} {vsrState : VSRState} {f : DataFile}
    (h : FileRun digests (DataFile.format digests cluster incarnation vsrState) f)
    (huntorn : Untorn f.trace) :
    Agree digests.header f.copies ↔
      (∃ w, Working digests.header f.copies w ∧ w.covered.incarnation ≠ 0 ∧
        ¬Outvoted f.copies) ∨
      (¬Readable digests.header f.copies ∧ ∀ identity, identity ≠ 0 →
        f.copies.countP (fun copy => copy.covered.incarnation == identity) < 2) := by
  have hformat := DataFile.format_sound digests cluster incarnation vsrState
  have hplain := h.plain hinj hformat (plain_written (beq_self_eq_true _) _) huntorn
  exact hplain.agree_iff hinj (h.sound hinj hformat).shaped

theorem formatted_stageOpen :
    stageOpen paired (written (formattedHeader 5) superblockCopies) =
      .ok (nextHeader (formattedHeader 5) .restarting, .continued 5) := by
  decide +kernel

/-- A boot that dies behind one copy leaves three that say `stopped`: both gates read a clean
stop. -/
theorem twin_verdict_eq_cut :
    ∃ f, FileRun pairedDigests (formattedFile 5) f ∧ f.trace = [.cutOpen .old] ∧
      bootVerdict paired f.copies = some ⟨.stopped, 5⟩ ∧ Agree paired f.copies ∧
      ((∃ w, Working paired f.copies w ∧ w.covered.incarnation ≠ 0 ∧ ¬Outvoted f.copies) ∨
        (¬Readable paired f.copies ∧ ∀ identity, identity ≠ 0 →
          f.copies.countP (fun copy => copy.covered.incarnation == identity) < 2)) := by
  have hcut := fileOf_cutOpen 5 (some (formattedHeader 5)) [] formatted_stageOpen
    (@Cut.old paired _ [formattedHeader 5] [(formattedHeader 5).stamp 2,
      (formattedHeader 5).stamp 3] ((formattedHeader 5).stamp 1))
  rw [← formattedFile_eq] at hcut
  have hverdicts : bootVerdict paired [nextHeader (formattedHeader 5) .restarting,
        (formattedHeader 5).stamp 1, (formattedHeader 5).stamp 2, (formattedHeader 5).stamp 3] =
          some ⟨.stopped, 5⟩ ∧
      (twinCopies [nextHeader (formattedHeader 5) .restarting, (formattedHeader 5).stamp 1,
        (formattedHeader 5).stamp 2, (formattedHeader 5).stamp 3]).classify =
          some (.stopped, 5) := by
    decide +kernel
  obtain ⟨hboot, hpure⟩ := hverdicts
  have hagree : Agree paired [nextHeader (formattedHeader 5) .restarting,
      (formattedHeader 5).stamp 1, (formattedHeader 5).stamp 2, (formattedHeader 5).stamp 3] := by
    rw [Agree, hboot, hpure]
    rfl
  have huntorn : Untorn [FileEvent.cutOpen .old] := fun event hevent => by
    rw [List.mem_singleton.mp hevent]
    rfl
  refine ⟨_, .step .start hcut, rfl, hboot, hagree, ?_⟩
  rw [← pairedDigests_header] at hagree ⊢
  exact (twin_verdict_eq_iff pairedDigests_injective (.step .start hcut) huntorn).mp hagree

/-- A boot that dies behind two copies leaves two copies that say `restarting` and two that say
`stopped`: the data file reads a crash, and the pure gate a clean stop. -/
theorem twin_verdict_parts :
    ∃ f, FileRun pairedDigests (formattedFile 5) f ∧ Untorn f.trace ∧
      bootVerdict paired f.copies = some ⟨.notStopped, 5⟩ ∧
      (twinCopies f.copies).classify = some (.stopped, 5) ∧ ¬Agree paired f.copies := by
  have hfirst := fileOf_cutOpen 5 (some (formattedHeader 5)) [] formatted_stageOpen
    (@Cut.old paired _ [formattedHeader 5, (formattedHeader 5).stamp 1]
      [(formattedHeader 5).stamp 3] ((formattedHeader 5).stamp 2))
  rw [← formattedFile_eq] at hfirst
  have hboot : bootVerdict paired [nextHeader (formattedHeader 5) .restarting,
      (nextHeader (formattedHeader 5) .restarting).stamp 1, (formattedHeader 5).stamp 2,
      (formattedHeader 5).stamp 3] = some ⟨.notStopped, 5⟩ := by decide +kernel
  have hpure : (twinCopies [nextHeader (formattedHeader 5) .restarting,
      (nextHeader (formattedHeader 5) .restarting).stamp 1, (formattedHeader 5).stamp 2,
      (formattedHeader 5).stamp 3]).classify = some (.stopped, 5) := by decide +kernel
  refine ⟨_, .step .start hfirst, fun event hevent => ?_, hboot, hpure, fun hagree => ?_⟩
  · rw [List.mem_singleton.mp hevent]
    rfl
  · have hverdicts := (congrArg (Option.map fun verdict : Verdict =>
      (verdict.restartClass.twin, verdict.identity)) hboot).symm.trans (hagree.trans hpure)
    cases hverdicts

end UvrrCore.Zig
