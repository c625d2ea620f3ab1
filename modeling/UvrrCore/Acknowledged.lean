import UvrrCore.Released

/-!
# The applied frontier

The host acknowledges the client operations it applied, one slot after the other. System entries
need no acknowledgement: every path that commits walks the applied frontier over them, each with
its own mixture of journal and overlay, and an acknowledgement walks it on from its slot.

* `Walked`: where a walk over system entries ends.
* `Served`: the lives in which publications take effect at once, with what was released and what
  was acknowledged.
* `AppliedLaw`: what the applied frontier stands for, and what may move it.
* `served_law`: the law holds in every such life.
-/

namespace UvrrCore

/-! ### Walking over system entries -/

section Walk

variable {read : Nat → Option LogEntry} {start end_ through : Nat}

/-- A system entry at a slot. -/
def SystemAt (read : Nat → Option LogEntry) (slot : Nat) : Prop :=
  ∃ entry op, read slot = some entry ∧ entry.payload = .system op

/-- **A walk**: over system entries, up to the next client operation or the end of the range. -/
structure Walked (read : Nat → Option LogEntry) (start end_ through : Nat) : Prop where
  forward : start ≤ end_
  within : end_ ≤ through
  systems : ∀ slot, start < slot → slot ≤ end_ → SystemAt read slot
  stops : end_ = through ∨ ClientAt read (end_ + 1)

theorem systemWalk_walked {left : Nat} (h : systemWalk read left start = .ok end_) :
    Walked read start end_ (start + left) := by
  induction left generalizing start with
  | zero =>
    cases h
    exact ⟨Nat.le_refl _, Nat.le_refl _, fun slot hlow hhigh => by omega, .inl rfl⟩
  | succ left ih =>
    unfold systemWalk at h
    split at h
    · cases h
    · rename_i entry hentry
      cases hpayload : entry.payload with
      | system op =>
        rw [hpayload] at h
        obtain ⟨hforward, hwithin, hsystems, hstops⟩ := ih h
        refine ⟨by omega, by omega, fun slot hlow hhigh => ?_, ?_⟩
        · by_cases hhere : slot = start + 1
          · exact ⟨entry, op, hhere ▸ hentry, hpayload⟩
          · exact hsystems slot (by omega) hhigh
        · rwa [show start + (left + 1) = start + 1 + left by omega]
      | operation id payload =>
        rw [hpayload] at h
        cases h
        exact ⟨Nat.le_refl _, by omega, fun slot hlow hhigh => by omega,
          .inr ⟨entry, id, payload, hentry, hpayload⟩⟩

/-- A readable range is walked. -/
theorem systemWalk_total {left walked : Nat}
    (h : ∀ slot, walked < slot → slot ≤ walked + left → ∃ entry, read slot = some entry) :
    ∃ end_, systemWalk read left walked = .ok end_ := by
  induction left generalizing walked with
  | zero => exact ⟨walked, rfl⟩
  | succ left ih =>
    obtain ⟨entry, hread⟩ := h (walked + 1) (by omega) (by omega)
    unfold systemWalk
    simp only [hread]
    split
    · exact ih fun slot hlow hhigh => h slot (by omega) (by omega)
    · exact ⟨walked, rfl⟩

/-- A walk that rests goes nowhere. -/
theorem systemWalk_rests {left : Nat} (h : left = 0 ∨ ClientAt read (start + 1)) :
    systemWalk read left start = .ok start := by
  cases left with
  | zero => rfl
  | succ left =>
    obtain ⟨entry, id, payload, hentry, hpayload⟩ := h.resolve_left (Nat.succ_ne_zero left)
    unfold systemWalk
    simp [hentry, hpayload, Payload.isSystem]

theorem Walked.mono {read' : Nat → Option LogEntry} (h : Walked read start end_ through)
    (hread : ∀ slot entry, start < slot → slot ≤ through → read slot = some entry →
      read' slot = some entry) : Walked read' start end_ through := by
  have hforward := h.forward
  have hwithin := h.within
  refine ⟨hforward, hwithin, fun slot hlow hhigh => ?_, ?_⟩
  · obtain ⟨entry, op, hentry, hpayload⟩ := h.systems slot hlow hhigh
    exact ⟨entry, op, hread slot entry hlow (by omega) hentry, hpayload⟩
  · rcases Nat.eq_or_lt_of_le hwithin with hend | hlt
    · exact .inl hend
    · obtain ⟨entry, id, payload, hentry, hpayload⟩ := h.stops.resolve_left (Nat.ne_of_lt hlt)
      exact .inr ⟨entry, id, payload, hread _ entry (by omega) hlt hentry, hpayload⟩

end Walk

/-! ### What a range holds -/

section Range

variable {J : Type} [Journal J] {journal journal' : J} {start mid through : Nat}

theorem committedIn_self (journal : J) (start : Nat) : committedIn journal start start = [] := by
  simp [committedIn]

theorem committedIn_append (hlow : start ≤ mid) (hhigh : mid ≤ through) :
    committedIn journal start through =
      committedIn journal start mid ++ committedIn journal mid through := by
  unfold committedIn
  rw [← List.filterMap_append, show mid + 1 = start + 1 + 1 * (mid - start) by omega,
    List.range'_append]
  congr 2
  omega

theorem committedIn_congr (h : ∀ slot, start < slot → slot ≤ through →
      Journal.get journal slot = Journal.get journal' slot) :
    committedIn journal start through = committedIn journal' start through := by
  refine List.filterMap_congr fun slot hmem => ?_
  rw [List.mem_range'_1] at hmem
  exact h slot (by omega) (by omega)

/-- System entries are not applied. -/
theorem committedIn_systems (h : ∀ slot, start < slot → slot ≤ through →
      SystemAt (Journal.get journal) slot) :
    (committedIn journal start through).filterMap LogEntry.applied = [] := by
  rw [List.filterMap_eq_nil_iff]
  intro entry hmem
  obtain ⟨slot, hslot, hget⟩ := List.mem_filterMap.mp hmem
  rw [List.mem_range'_1] at hslot
  obtain ⟨held, op, hheld, hpayload⟩ := h slot (by omega) (by omega)
  rw [hheld] at hget
  cases hget
  unfold LogEntry.applied
  rw [hpayload]

theorem committedIn_next {entry : LogEntry} (h : Journal.get journal (start + 1) = some entry) :
    committedIn journal start (start + 1) = [entry] := by
  simp [committedIn, h]

theorem applied_slot [LawfulJournal J] {slot : Nat} {entry : LogEntry} {effect : Effect}
    (hget : Journal.get journal slot = some entry) (h : entry.applied = some effect) :
    effect.appliedSlot = some slot := by
  have hslot := LawfulJournal.get_slot hget
  unfold LogEntry.applied at h
  split at h
  · cases h
    exact congrArg some hslot
  · cases h

end Range

/-! ### What a publication leaves of the committed entries -/

section Confirm

variable {J : Type} [Journal J]

/-- The comparison stops at an uncommitted slot. -/
theorem scanSuffix_uncommitted {journal : J} {localAccepted committed discharged slot : Nat}
    {entries : List LogEntry} (hle : committed ≤ localAccepted)
    (h : scanSuffix journal localAccepted committed discharged entries = .differsAt slot) :
    committed < slot := by
  induction entries with
  | nil => cases h
  | cons entry rest ih =>
    rw [scanSuffix] at h
    split at h
    · rename_i habove
      cases h
      omega
    · split at h
      · split at h
        · exact ih h
        · split at h
          · cases h
          · rename_i hlater
            cases h
            omega
      · split at h
        · exact ih h
        · cases h

namespace Replica

variable {r : Replica J}

/-- An accepted suffix offers the committed entries as they are held. -/
theorem checkSuffix_confirms {overlay : List LogEntry} {accepted committed discharged : Nat}
    {mutation : JournalMutation} (hshape : Shaped overlay accepted)
    (hcheck : r.checkSuffix overlay accepted committed discharged = .install mutation)
    (hdischarged : discharged ≤ r.progress.checkpoint) {slot : Nat}
    (hlow : r.progress.checkpoint < slot) (hhigh : slot ≤ r.progress.committed) :
    merged r.journal overlay slot = Journal.get r.journal slot := by
  obtain ⟨-, -, hrun, -⟩ := firstSlot_of_shaped hshape
  unfold merged
  cases hentry : entryAt overlay slot with
  | none => rfl
  | some entry =>
    have hmem : entry ∈ overlay := List.mem_of_find?_eq_some hentry
    have hslot : entry.slot = slot := entryAt_slot hentry
    have hpassed : PassedOver r.journal r.progress.accepted discharged entry →
        Journal.get r.journal slot = some entry := by
      rintro ⟨-, hheld | ⟨-, hvouched⟩⟩
      · exact hslot ▸ hheld
      · omega
    refine (hpassed ?_).symm
    unfold checkSuffix at hcheck
    cases overlay with
    | nil => cases hmem
    | cons first rest =>
      simp only at hcheck
      split at hcheck
      · cases hcheck
      · rename_i hconnects
        have hnear : first.slot ≤ r.progress.accepted + 1 := by
          by_cases hnext : Slot.next r.progress.accepted = some first.slot
          · rw [Slot.next_eq_some] at hnext
            omega
          · have hbelow : ¬ r.progress.accepted < first.slot := fun hlt => hconnects ⟨hnext, hlt⟩
            omega
        split at hcheck
        · cases hcheck
        · cases hcheck
        · rename_i start hdiffers
          have huncommitted := scanSuffix_uncommitted r.progress.committed_le_accepted hdiffers
          obtain ⟨-, -, -, hall⟩ := scanSuffix_differsAt hrun hnear hdiffers
          exact hall entry hmem (by omega)
        · rename_i hagreed
          exact scanSuffix_agreed hagreed entry hmem

/-- **No overlay says otherwise about a committed entry.** -/
theorem Rewrite.confirms {given : Given} {overlay : List LogEntry} {covered accepted : Nat}
    {mutation : JournalMutation} (h : r.Rewrite given overlay covered mutation accepted)
    (hshaped : ∀ entries accepted, given.shape entries accepted → Shaped entries accepted)
    {slot : Nat} (hlow : r.progress.checkpoint < slot) (hhigh : slot ≤ r.progress.committed) :
    merged r.journal overlay slot = Journal.get r.journal slot := by
  cases h with
  | kept hoverlay =>
    rw [hoverlay]
    rfl
  | appended hoverlay hrun hlast hwidth =>
    rcases hoverlay with rfl | rfl
    · rfl
    · have hcommitted := r.progress.committed_le_accepted
      unfold merged
      rw [hrun.entryAt_eq, if_pos (by omega)]
  | spliced hshape hcheck hdischarged _ =>
    exact checkSuffix_confirms (hshaped _ _ hshape) hcheck hdischarged hlow hhigh
  | truncated hboot hcut hshape hwhole hshort hcheck =>
    obtain ⟨whole, hwhole⟩ := hwhole
    exact checkSuffix_confirms (hshaped _ _ hshape) hwhole (Nat.zero_le _) hlow hhigh

variable [LawfulJournal J] {log : List LogEntry} {uncut : Prop}

/-- A backed replica holds what lies between its checkpoint and the end of its log. -/
theorem Backed.holds (h : r.Backed uncut log) {slot : Nat} (hlow : r.progress.checkpoint < slot)
    (hhigh : slot ≤ log.length) : ∃ entry, Journal.get r.journal slot = some entry :=
  Option.isSome_iff_exists.mp
    (LawfulJournal.get_isSome h.frontier (h.first.trans hlow) hhigh)

/-- **What a mutated journal holds**: what the plan read through its overlay. -/
theorem Rewrite.holds {given : Given} {overlay : List LogEntry} {covered accepted : Nat}
    {mutation : JournalMutation} (h : r.Rewrite given overlay covered mutation accepted)
    (hshaped : ∀ entries accepted, given.shape entries accepted → Shaped entries accepted)
    (hbacked : r.Backed uncut log) (hlength : r.progress.accepted = log.length)
    (hcovered : covered ≤ accepted) {journal : J}
    (hjournal : mutateJournal r.journal mutation = .ok journal) {slot : Nat} {entry : LogEntry}
    (hlow : r.progress.checkpoint < slot) (hhigh : slot ≤ covered)
    (hread : merged r.journal overlay slot = some entry) :
    Journal.get journal slot = some entry := by
  obtain ⟨log', hmutates, hreach, -, hlogged⟩ :=
    h.lands hshaped hbacked.reads hlength hcovered
  obtain ⟨hreads, hfrontier, hfirst⟩ := hmutates.reads hbacked.reads hbacked.frontier hjournal
  have hold := hbacked.first
  obtain ⟨held, hheld⟩ := Option.isSome_iff_exists.mp
    (LawfulJournal.get_isSome hfrontier (by omega) (hhigh.trans hreach))
  have hlog := hreads slot held hheld
  rw [hlogged slot entry hlow hhigh hread] at hlog
  cases hlog
  exact hheld

/-- **What a publication does to the applied frontier**: the committed entries stay, and the
frontier is walked over system entries, left alone, or moved on a report of the host. -/
theorem Backed.publishes (h : r.Backed uncut log) (hunparked : r.parked = none)
    {input : TimedInput} (hstorable : input.Storable) {plan : PlannedTransition}
    (hplan : r.plan input = .ok plan) {journal : J}
    (hjournal : mutateJournal r.journal plan.journal = .ok journal) :
    (plan.candidate.status = .replaying → r.progress.status = .replaying) ∧
    (∀ slot, r.progress.checkpoint < slot → slot ≤ r.progress.committed →
      Journal.get journal slot = Journal.get r.journal slot) ∧
    ((plan.candidate.committed = r.progress.committed ∧
        (plan.candidate.applied = r.progress.applied ∨ ∃ slot, input.event = .applied slot)) ∨
      Walked (Journal.get journal) r.progress.applied plan.candidate.applied
        plan.candidate.committed) := by
  rcases plan_source hplan with hdrafted | ⟨revision, result, hconfirmed⟩
  · have hlength := h.accepted_eq hplan
    have hfed := h.wellFed hstorable
    have hshaped : ∀ entries accepted, (r.givenOf input).shape entries accepted →
        Shaped entries accepted := fun _ _ hshape => hshape hfed
    have hbound := plan.candidate.committed_le_accepted
    have hkept : ∀ {overlay : List LogEntry} {covered : Nat},
        r.Rewrite (r.givenOf input) overlay covered plan.journal plan.candidate.accepted →
        r.progress.committed ≤ covered → covered ≤ plan.candidate.accepted →
        ∀ slot, r.progress.checkpoint < slot → slot ≤ r.progress.committed →
          Journal.get journal slot = Journal.get r.journal slot := by
      intro overlay covered hrewrite hle hcovered slot hlow hhigh
      obtain ⟨entry, hentry⟩ := h.holds hlow (hhigh.trans h.committed)
      rw [hentry]
      refine hrewrite.holds hshaped h hlength hcovered hjournal hlow (hhigh.trans hle) ?_
      rw [hrewrite.confirms hshaped hlow hhigh]
      exact hentry
    refine ⟨hdrafted.replays, ?_⟩
    cases hdrafted.advance with
    | still hcommitted happlied hconfig happlies hrewrite =>
      exact ⟨hkept hrewrite (Nat.le_refl _) (hcommitted ▸ hbound), .inl ⟨hcommitted, happlied⟩⟩
    | commit hfold hcommitted happlied hconfig hseen happlies hrewrite =>
      have hforward := (foldCommitted_covered hfold).1
      have hwithin := r.progress.applied_le_committed
      have hcheckpoint := r.progress.checkpoint_le_applied
      refine ⟨hkept hrewrite hforward (hcommitted ▸ hbound), .inr ?_⟩
      have hwalked := systemWalk_walked happlied
      rw [Nat.add_sub_cancel' (hwithin.trans hforward), ← hcommitted] at hwalked
      exact hwalked.mono fun slot entry hlow hhigh hread =>
        hrewrite.holds hshaped h hlength (hcommitted ▸ hbound) hjournal (by omega)
          (hcommitted ▸ hhigh) hread
  · unfold planConfirmation at hconfirmed
    rw [hunparked] at hconfirmed
    cases hconfirmed

end Replica

end Confirm

/-! ### The law -/

namespace Replica

section Law

variable {J : Type} [Journal J]

/-- **The next client operation**: committed, not applied yet, and none lies before it. -/
structure NextOperation (r : Replica J) (slot : Nat) : Prop where
  bounded : slot < u64Bound
  unapplied : r.progress.applied < slot
  committed : slot ≤ r.progress.committed
  client : ClientAt (Journal.get r.journal) slot
  first : ∀ earlier, r.progress.applied < earlier → earlier < slot →
    ¬ ClientAt (Journal.get r.journal) earlier

/-- The released effects whose slots are not acknowledged. -/
def outstanding (released : List Effect) (acknowledged : List Nat) : List Effect :=
  released.filter fun effect => !(effect.appliedSlot.any acknowledged.contains)

/-- **The law of the applied frontier.** -/
structure AppliedLaw (r : Replica J) (released : List Effect) (acknowledged : List Nat) :
    Prop where
  /-- An acknowledgement is taken for the next client operation and for no other slot. -/
  accepts : ∀ slot, (∃ plan, r.planApplied slot = .ok plan) ↔
    r.progress.revision + 1 < u64Bound ∧ r.NextOperation slot
  /-- It moves the applied frontier to its slot and on over the system entries behind it. -/
  moves : ∀ slot plan, r.planApplied slot = .ok plan →
    plan.candidate.committed = r.progress.committed ∧
      Walked (Journal.get r.journal) slot plan.candidate.applied r.progress.committed
  /-- A checkpoint is taken at or below the applied frontier only. -/
  checkpoints : ∀ through plan, r.planCheckpointed through = .ok plan →
    through ≤ r.progress.applied
  /-- What was released and not acknowledged lies between the applied and the committed frontier,
  and is all of it. -/
  released : outstanding released acknowledged =
    (committedIn r.journal r.progress.applied r.progress.committed).filterMap LogEntry.applied

/-- The slot an input acknowledges, where the replica takes it. -/
def acknowledgedBy (r : Replica J) (input : TimedInput) : List Nat :=
  match input.event with
  | .applied slot => if (r.plan input).toOption.isSome then [slot] else []
  | _ => []

/-- **A life whose publications take effect at once**, with what was released and acknowledged. -/
inductive Served (allowed : Replica J → TimedInput → Prop) :
    Replica J → List Effect → List Nat → Prop
  | provision {own : Nat} {order : List Nat} {strategy : QuorumStrategy} {journal : J}
      {knobs : ViewChangeKnobs} {r : Replica J}
      (h : provision own order strategy journal .volatile knobs = .ok r) : Served allowed r [] []
  | witnesses {r : Replica J} {released : List Effect} {acknowledged : List Nat}
      (h : Served allowed r released acknowledged) (witnesses : List Nat) :
      Served allowed (r.withWitnesses witnesses) released acknowledged
  | step {r : Replica J} {released : List Effect} {acknowledged : List Nat}
      (h : Served allowed r released acknowledged) (input : TimedInput)
      (hallowed : allowed r input) :
      Served allowed (r.step input).1 (released ++ (r.step input).2.filter Effect.isApply)
        (acknowledged ++ r.acknowledgedBy input)
  | reclaim {r : Replica J} {released : List Effect} {acknowledged : List Nat}
      (h : Served allowed r released acknowledged) {journal : J}
      (hreclaims : Reclaims r.journal journal r.progress.checkpoint) :
      Served allowed { r with journal := journal } released acknowledged

theorem Served.life {allowed : Replica J → TimedInput → Prop} {r : Replica J}
    {released : List Effect} {acknowledged : List Nat}
    (h : Served allowed r released acknowledged) : ∃ ranges, Life allowed r ranges released := by
  induction h with
  | provision h => exact ⟨_, .provision h⟩
  | witnesses h witnesses ih =>
    obtain ⟨ranges, hlife⟩ := ih
    exact ⟨_, hlife.witnesses witnesses⟩
  | step h input hallowed ih =>
    obtain ⟨ranges, hlife⟩ := ih
    exact ⟨_, hlife.step input hallowed⟩
  | reclaim h hreclaims ih =>
    obtain ⟨ranges, hlife⟩ := ih
    exact ⟨_, hlife.reclaim hreclaims⟩

end Law

/-! ### The invariant of a served life -/

section Accounts

variable {J : Type} [Journal J] {r r' : Replica J} {released applies : List Effect}
  {acknowledged : List Nat}

/-- **Every release is accounted for**: the acknowledged ones come first, the others are the client
operations behind the applied frontier, which rests in front of one of them or has nothing left. -/
structure Accounted (r : Replica J) (released : List Effect) (acknowledged : List Nat) : Prop where
  volatile : r.stability = .volatile
  unparked : r.parked = none
  awake : r.progress.status ≠ .replaying
  rests : r.progress.applied = r.progress.committed ∨
    ClientAt (Journal.get r.journal) (r.progress.applied + 1)
  bounded : ∀ slot ∈ acknowledged, slot ≤ r.progress.applied
  split : ∃ done, (∀ effect ∈ done, ∃ slot ∈ acknowledged, effect.appliedSlot = some slot) ∧
    released = done ++
      (committedIn r.journal r.progress.applied r.progress.committed).filterMap LogEntry.applied

/-- A publication walks the frontier on and releases what it commits. -/
theorem Accounted.walk (h : r.Accounted released acknowledged)
    (hvolatile : r'.stability = .volatile) (hunparked : r'.parked = none)
    (hawake : r'.progress.status ≠ .replaying)
    (hforward : r.progress.committed ≤ r'.progress.committed)
    (hkept : ∀ slot, r.progress.applied < slot → slot ≤ r.progress.committed →
      Journal.get r'.journal slot = Journal.get r.journal slot)
    (hwalked : Walked (Journal.get r'.journal) r.progress.applied r'.progress.applied
      r'.progress.committed)
    (happlies : applies = (committedIn r'.journal r.progress.committed
      r'.progress.committed).filterMap LogEntry.applied) :
    r'.Accounted (released ++ applies) acknowledged := by
  obtain ⟨done, hdone, hreleased⟩ := h.split
  refine ⟨hvolatile, hunparked, hawake, hwalked.stops,
    fun slot hmem => (h.bounded slot hmem).trans hwalked.forward, done, hdone, ?_⟩
  have happlied := r.progress.applied_le_committed
  have hold : committedIn r.journal r.progress.applied r.progress.committed =
      committedIn r'.journal r.progress.applied r.progress.committed :=
    committedIn_congr fun slot hlow hhigh => (hkept slot hlow hhigh).symm
  have hpassed : (committedIn r'.journal r.progress.applied r'.progress.applied).filterMap
      LogEntry.applied = [] := committedIn_systems hwalked.systems
  rw [hreleased, happlies, List.append_assoc, hold, ← List.filterMap_append,
    ← committedIn_append happlied hforward,
    committedIn_append hwalked.forward hwalked.within, List.filterMap_append, hpassed,
    List.nil_append]

/-- The frontier rests while the committed entries stay. -/
theorem Accounted.walked_self (h : r.Accounted released acknowledged) (r' : Replica J)
    (hcommitted : r'.progress.committed = r.progress.committed)
    (happlied : r'.progress.applied = r.progress.applied)
    (hkept : ∀ slot, r.progress.applied < slot → slot ≤ r.progress.committed →
      Journal.get r'.journal slot = Journal.get r.journal slot) :
    Walked (Journal.get r'.journal) r.progress.applied r'.progress.applied
      r'.progress.committed := by
  have hle := r.progress.applied_le_committed
  rw [hcommitted, happlied]
  refine ⟨Nat.le_refl _, hle, fun slot hlow hhigh => by omega, ?_⟩
  rcases Nat.eq_or_lt_of_le hle with hend | hlt
  · exact .inl hend
  · obtain ⟨entry, id, payload, hentry, hpayload⟩ := h.rests.resolve_left (Nat.ne_of_lt hlt)
    refine .inr ⟨entry, id, payload, ?_, hpayload⟩
    rw [hkept _ (Nat.lt_succ_self _) hlt]
    exact hentry

/-- Nothing of the record moves but the fault and the revision. -/
theorem Accounted.still (h : r.Accounted released acknowledged) (hjournal : r'.journal = r.journal)
    (hvolatile : r'.stability = r.stability) (hunparked : r'.parked = none)
    (hstatus : r'.progress.status = r.progress.status)
    (hcommitted : r'.progress.committed = r.progress.committed)
    (happlied : r'.progress.applied = r.progress.applied) :
    r'.Accounted released acknowledged := by
  have hkept : ∀ slot, r.progress.applied < slot → slot ≤ r.progress.committed →
      Journal.get r'.journal slot = Journal.get r.journal slot := by
    intro slot _ _
    rw [hjournal]
  have hnothing : [] = (committedIn r'.journal r.progress.committed
      r'.progress.committed).filterMap LogEntry.applied := by
    rw [hcommitted, committedIn_self]
    rfl
  have hwalk := h.walk (hvolatile.trans h.volatile) hunparked (hstatus ▸ h.awake) hcommitted.ge
    hkept (h.walked_self r' hcommitted happlied hkept) hnothing
  rwa [List.append_nil] at hwalk

end Accounts

/-! ### Acknowledgements -/

section Acknowledge

variable {J : Type} [Journal J] {r : Replica J} {released : List Effect}
  {acknowledged : List Nat} {slot : Nat} {plan : PlannedTransition}

theorem planApplied_ok (h : r.planApplied slot = .ok plan) :
    ∃ applied candidate, r.expectedApplied = .ok (some slot) ∧
      r.appliedWalk [] slot r.progress.committed = .ok applied ∧
      r.candidateWith (r.appliedStatus applied) r.progress.accepted r.progress.committed applied
        r.progress.config none = .ok candidate ∧
      plan = (r.candidatePlan candidate .none [] .applied false).withBookkeeping
        { resolved := [slot] } := by
  obtain ⟨expected, hexpected, h⟩ := bind_eq_ok.mp h
  split at h
  · cases h
  · rename_i hslot
    obtain ⟨applied, hwalk, h⟩ := bind_eq_ok.mp h
    obtain ⟨candidate, hcandidate, h⟩ := bind_eq_ok.mp h
    rw [not_not.mp hslot] at hexpected
    exact ⟨applied, candidate, hexpected, hwalk, hcandidate, (pure_eq_ok.mp h).symm⟩

theorem plan_applied_eq {input : TimedInput} (hevent : input.event = .applied slot)
    (h : r.plan input = .ok plan) : r.planApplied slot = .ok plan := by
  unfold Replica.plan at h
  split at h
  · cases h
  · simp only at h
    split at h
    · cases h
    · rw [hevent] at h
      exact (refuseIfParked_ok h).2

theorem acknowledgedBy_cases (r : Replica J) (input : TimedInput) :
    (r.acknowledgedBy input = [] ∧ ∀ slot plan, input.event = .applied slot →
      r.plan input ≠ .ok plan) ∨
    ∃ slot plan, input.event = .applied slot ∧ r.plan input = .ok plan ∧
      r.acknowledgedBy input = [slot] := by
  unfold acknowledgedBy
  cases hevent : input.event with
  | applied slot =>
    cases hplan : r.plan input with
    | error refusal => exact .inl ⟨rfl, fun _ _ _ heq => by cases heq⟩
    | ok plan => exact .inr ⟨slot, plan, rfl, rfl, rfl⟩
  | _ => exact .inl ⟨rfl, fun _ _ heq => by cases heq⟩

/-- The next client operation lies right behind the applied frontier. -/
theorem Accounted.next_eq (h : r.Accounted released acknowledged) (hnext : r.NextOperation slot) :
    slot = r.progress.applied + 1 := by
  have hlow := hnext.unapplied
  by_contra hne
  exact hnext.first _ (Nat.lt_succ_self _) (by omega)
    (h.rests.resolve_left (Nat.ne_of_lt (hlow.trans_le hnext.committed)))

/-- **The expected acknowledgement** is the one of the next client operation. -/
theorem Accounted.expected_iff (h : r.Accounted released acknowledged) :
    r.expectedApplied = .ok (some slot) ↔ r.NextOperation slot := by
  have hrests : r.progress.committed - r.progress.applied = 0 ∨
      ClientAt (merged r.journal []) (r.progress.applied + 1) := by
    rcases h.rests with heq | hclient
    · exact .inl (by omega)
    · exact .inr hclient
  have hwalk : r.appliedWalk [] r.progress.applied r.progress.committed =
      .ok r.progress.applied := systemWalk_rests hrests
  constructor
  · intro hexpected
    obtain ⟨walked, hwalked, hexpected⟩ := bind_eq_ok.mp hexpected
    rw [hwalk] at hwalked
    cases hwalked
    split at hexpected
    · rename_i next hnext
      obtain ⟨hbound, rfl⟩ := Slot.next_eq_some.mp hnext
      have hslot := pure_eq_ok.mp hexpected
      split at hslot
      · rename_i hle
        cases hslot
        exact ⟨hbound, Nat.lt_succ_self _, hle, h.rests.resolve_left (Nat.ne_of_lt hle),
          fun earlier hlow hhigh => by omega⟩
      · cases hslot
    · cases pure_eq_ok.mp hexpected
  · intro hnext
    have hle := hnext.committed
    obtain rfl := h.next_eq hnext
    refine bind_eq_ok.mpr ⟨r.progress.applied, hwalk, ?_⟩
    rw [Slot.next_eq_some.mpr ⟨hnext.bounded, rfl⟩]
    simp only [hle, if_true]
    rfl

end Acknowledge

/-! ### One input -/

section Step

variable {J : Type} [Journal J] [LawfulJournal J] {r : Replica J} {released : List Effect}
  {acknowledged : List Nat} {slot : Nat} {plan : PlannedTransition} {log : List LogEntry}
  {uncut : Prop}

theorem Accounted.accepts (h : r.Accounted released acknowledged) (hbacked : r.Backed uncut log) :
    (∃ plan, r.planApplied slot = .ok plan) ↔
      r.progress.revision + 1 < u64Bound ∧ r.NextOperation slot := by
  constructor
  · rintro ⟨plan, hplan⟩
    obtain ⟨applied, candidate, hexpected, -, hcandidate, -⟩ := planApplied_ok hplan
    exact ⟨nextRecord_room hcandidate, h.expected_iff.mp hexpected⟩
  · rintro ⟨hrevision, hnext⟩
    have hlow := hnext.unapplied
    have hle := hnext.committed
    have hcheckpoint := r.progress.checkpoint_le_applied
    obtain ⟨applied, hwalk⟩ : ∃ applied,
        r.appliedWalk [] slot r.progress.committed = .ok applied :=
      systemWalk_total fun s hbelow habove =>
        hbacked.holds (by omega) ((show s ≤ r.progress.committed by omega).trans hbacked.committed)
    have hwalked := systemWalk_walked hwalk
    have hforward := hwalked.forward
    have hwithin := hwalked.within
    have hstatus : r.appliedStatus applied = r.progress.status :=
      if_neg fun hreplay => h.awake hreplay.1
    obtain ⟨candidate, hcandidate⟩ : ∃ candidate,
        r.candidateWith (r.appliedStatus applied) r.progress.accepted r.progress.committed applied
          r.progress.config none = .ok candidate := by
      refine nextRecord_of_check hrevision (ProgressData.check_eq_ok.mpr ⟨⟨?_, ?_, ?_⟩, ?_, ?_⟩)
      · show r.progress.checkpoint ≤ applied
        omega
      · show applied ≤ r.progress.committed
        omega
      · exact r.progress.committed_le_accepted
      · rw [hstatus]
        exact r.progress.statusRelation
      · exact r.progress.eraDiscipline
    refine ⟨(r.candidatePlan candidate .none [] .applied false).withBookkeeping
      { resolved := [slot] }, bind_eq_ok.mpr ⟨some slot, h.expected_iff.mpr hnext, ?_⟩⟩
    rw [if_neg (not_not.mpr rfl)]
    exact bind_eq_ok.mpr ⟨applied, hwalk, bind_eq_ok.mpr ⟨candidate, hcandidate, rfl⟩⟩

omit [LawfulJournal J] in
theorem planApplied_moves (hle : slot ≤ r.progress.committed)
    (hplan : r.planApplied slot = .ok plan) :
    plan.candidate.committed = r.progress.committed ∧
      Walked (Journal.get r.journal) slot plan.candidate.applied r.progress.committed := by
  obtain ⟨applied, candidate, -, hwalk, hcandidate, rfl⟩ := planApplied_ok hplan
  have hwalked := systemWalk_walked hwalk
  rw [Nat.add_sub_cancel' hle] at hwalked
  have hdata := candidateWith_ok hcandidate
  have hcommitted : candidate.committed = r.progress.committed := by rw [hdata]; rfl
  have happlied : candidate.applied = applied := by rw [hdata]; rfl
  refine ⟨hcommitted, ?_⟩
  show Walked (Journal.get r.journal) slot candidate.applied r.progress.committed
  rw [happlied]
  exact hwalked

omit [Journal J] [LawfulJournal J] in
/-- The transition of an acknowledgement is legal. -/
theorem legal_applied {applied : Nat} {status : Status} {candidate : Progress}
    (hfault : r.progress.fault = none) (hmoved : r.progress.applied ≤ applied)
    (hcandidate : r.candidateWith status r.progress.accepted r.progress.committed applied
      r.progress.config none = .ok candidate) :
    legal r.progress.toProgressData candidate.toProgressData .applied = none := by
  have hdata := candidateWith_ok hcandidate
  have hrevision := nextRecord_room hcandidate
  refine legal_eq_none_iff.mpr ⟨hfault, ?_, ?_, ?_, ?_, ?_, rfl⟩
  · unfold rule1FrontiersViolated
    rw [if_neg (not_not.mpr candidate.frontierChain), hdata]
    have hmonotone : ¬(r.progress.committed < r.progress.committed ∨
        applied < r.progress.applied ∨ r.progress.checkpoint < r.progress.checkpoint) := by omega
    exact (if_neg hmonotone).trans (by simp [recordWith])
  · rw [hdata]
    exact if_pos rfl
  · rw [hdata]
    exact if_pos rfl
  · rw [hdata]
    simp [rule4RevisionViolated, recordWith, hrevision]
  · unfold rule6EraSlotViolated
    simpa using candidate.eraDiscipline

/-- **An acknowledgement taken** moves the frontier over the slot it names. -/
theorem Accounted.acknowledge (h : r.Accounted released acknowledged) {input : TimedInput}
    (hevent : input.event = .applied slot) (hplan : r.plan input = .ok plan) :
    (r.step input).1.Accounted (released ++ (r.step input).2.filter Effect.isApply)
      (acknowledged ++ [slot]) := by
  have htaken := plan_applied_eq hevent hplan
  obtain ⟨applied, candidate, hexpected, hwalk, hcandidate, rfl⟩ := planApplied_ok htaken
  have hnext := h.expected_iff.mp hexpected
  have hslot := h.next_eq hnext
  obtain ⟨entry, id, payload, hentry, hpayload⟩ := hnext.client
  have hwalked := systemWalk_walked hwalk
  rw [Nat.add_sub_cancel' hnext.committed] at hwalked
  have hforward := hwalked.forward
  have hdata := candidateWith_ok hcandidate
  have hmoved : candidate.applied = applied := by rw [hdata]; rfl
  have hcommitted : candidate.committed = r.progress.committed := by rw [hdata]; rfl
  have hstatus : candidate.status = r.progress.status := by
    rw [hdata]
    exact if_neg fun hreplay => h.awake hreplay.1
  have hlegal := legal_applied (plan_gate hplan).1 (show r.progress.applied ≤ applied by omega)
    hcandidate
  obtain ⟨done, hdone, hreleased⟩ := h.split
  have hjournal : mutateJournal r.journal .none = .ok r.journal := rfl
  rw [step_installs_ok hplan rfl rfl hlegal (.inr h.volatile) hjournal]
  refine ⟨h.volatile, rfl, ?_, ?_, fun s hmem => ?_, done ++ [.apply slot id payload],
    fun effect hmem => ?_, ?_⟩
  · show candidate.status ≠ .replaying
    rw [hstatus]
    exact h.awake
  · show candidate.applied = candidate.committed ∨ ClientAt _ (candidate.applied + 1)
    rw [hmoved, hcommitted]
    exact hwalked.stops
  · show s ≤ candidate.applied
    rw [hmoved]
    rcases List.mem_append.mp hmem with hold | hnew
    · have := h.bounded s hold
      omega
    · rw [List.mem_singleton.mp hnew]
      exact hforward
  · rcases List.mem_append.mp hmem with hold | hnew
    · obtain ⟨s, hs, happlied⟩ := hdone effect hold
      exact ⟨s, List.mem_append_left _ hs, happlied⟩
    · rw [List.mem_singleton.mp hnew]
      exact ⟨slot, List.mem_append_right _ List.mem_cons_self, rfl⟩
  · show released ++ [] = done ++ [.apply slot id payload] ++
      (committedIn r.journal candidate.applied candidate.committed).filterMap LogEntry.applied
    have hhere : committedIn r.journal r.progress.applied slot = [entry] := by
      rw [hslot] at hentry ⊢
      exact committedIn_next hentry
    have heffect : entry.applied = some (.apply slot id payload) := by
      unfold LogEntry.applied
      rw [hpayload, LawfulJournal.get_slot hentry]
    have hpassed : (committedIn r.journal slot applied).filterMap LogEntry.applied = [] :=
      committedIn_systems hwalked.systems
    rw [List.append_nil, hreleased, hmoved, hcommitted,
      committedIn_append hnext.unapplied.le hnext.committed,
      committedIn_append hwalked.forward hwalked.within, List.filterMap_append,
      List.filterMap_append, hpassed, hhere]
    simp [heffect]

/-- **One input keeps every release accounted for.** -/
theorem Accounted.step (h : r.Accounted released acknowledged) (hbacked : r.Backed False log)
    {input : TimedInput} (hstorable : input.Storable) :
    (r.step input).1.Accounted (released ++ (r.step input).2.filter Effect.isApply)
      (acknowledged ++ r.acknowledgedBy input) := by
  rcases acknowledgedBy_cases r input with ⟨hnone, hnot⟩ | ⟨slot, plan, hevent, hplan, hsome⟩
  · rw [hnone, List.append_nil]
    obtain ⟨⟨log', -, hrange, hcommits⟩, -⟩ := hbacked.step hstorable fun hfalse => hfalse.elim
    have happlies := hcommits.applies
    have hforward := hcommits.forward
    rw [← hrange] at happlies
    have hfaulted : ∀ (s : Replica J) (fault : Fault), s = r ∨ s = { r with parked := none } →
        (s.faultNode fault).Accounted (released ++ []) acknowledged := by
      intro s fault hs
      rw [List.append_nil]
      have hsame : s.journal = r.journal ∧ s.stability = r.stability ∧ s.parked = none ∧
          s.progress = r.progress := by
        rcases hs with rfl | rfl
        · exact ⟨rfl, rfl, h.unparked, rfl⟩
        · exact ⟨rfl, rfl, rfl, rfl⟩
      obtain ⟨hjournal, hstability, hunparked, hprogress⟩ := hsame
      rcases faultNode_cases s fault with heq | ⟨progress, heq, hdata⟩
      · rw [heq]
        exact h.still hjournal hstability hunparked (hprogress ▸ rfl) (hprogress ▸ rfl)
          (hprogress ▸ rfl)
      · rw [heq]
        rw [hprogress] at hdata
        refine h.still hjournal hstability hunparked ?_ ?_ ?_
        · show progress.status = _
          rw [hdata]
        · show progress.committed = _
          rw [hdata]
        · show progress.applied = _
          rw [hdata]
    have houtcome := step_outcome r input
    generalize r.step input = out at houtcome happlies hforward ⊢
    cases houtcome with
    | refused =>
      show r.Accounted (released ++ []) acknowledged
      rwa [List.append_nil]
    | faulted fault => exact hfaulted r fault (.inl rfl)
    | diverged plan hplan hlegal => exact hfaulted _ _ (.inr rfl)
    | parked plan hplan hfresh hstability => exact (hstability h.volatile).elim
    | published plan journal hplan hbase hfault hlegal hjournal =>
      obtain ⟨hreplays, hkept, hmoves⟩ :=
        hbacked.publishes h.unparked hstorable hplan hjournal
      have hcheckpoint := r.progress.checkpoint_le_applied
      have hheld : ∀ slot, r.progress.applied < slot → slot ≤ r.progress.committed →
          Journal.get journal slot = Journal.get r.journal slot :=
        fun slot hlow hhigh => hkept slot (by omega) hhigh
      refine h.walk h.volatile rfl (fun hreplay => h.awake (hreplays hreplay)) hforward hheld ?_
        happlies
      rcases hmoves with ⟨hcommitted, happlied | ⟨slot, hevent⟩⟩ | hwalked
      · exact h.walked_self _ hcommitted happlied hheld
      · exact (hnot slot plan hevent hplan).elim
      · exact hwalked
  · rw [hsome]
    exact h.acknowledge hevent hplan

end Step

/-! ### Served lives -/

section Lives

variable {J : Type} [Journal J] [LawfulJournal J] {r : Replica J} {released : List Effect}
  {acknowledged : List Nat}

theorem Served.accounted (h : Served (fun _ input => input.Storable) r released acknowledged) :
    r.Accounted released acknowledged := by
  induction h with
  | provision h =>
    obtain ⟨table, journal', progress, -, -, -, hdata, rfl⟩ := provision_data h
    have hstatus : progress.status = .joining := by rw [hdata]
    have happlied : progress.applied = progress.committed := by rw [hdata]
    refine ⟨rfl, rfl, ?_, .inl happlied, fun _ hmem => (by cases hmem), [],
      fun _ hmem => (by cases hmem), ?_⟩
    · show progress.status ≠ .replaying
      rw [hstatus]
      decide
    · show [] = [] ++ (committedIn journal' progress.applied progress.committed).filterMap _
      rw [happlied, committedIn_self]
      rfl
  | witnesses h witnesses ih =>
    obtain ⟨hvolatile, hunparked, hawake, hrests, hbounded, hsplit⟩ := ih
    exact ⟨hvolatile, hunparked, hawake, hrests, hbounded, hsplit⟩
  | @step r released acknowledged h input hallowed ih =>
    obtain ⟨ranges, hlife⟩ := h.life
    have hlived : Lived False r ranges released :=
      hlife.lived fun _ _ hstorable => ⟨hstorable, fun hfalse => hfalse.elim⟩
    obtain ⟨log, hbacked⟩ := hlived.backed
    exact ih.step hbacked hallowed
  | @reclaim r released acknowledged h journal hreclaims ih =>
    have hkept : ∀ slot, r.progress.applied < slot → slot ≤ r.progress.committed →
        Journal.get journal slot = Journal.get r.journal slot := by
      intro slot hlow _
      exact hreclaims.kept slot (r.progress.checkpoint_le_applied.trans_lt hlow)
    have hnothing : [] = (committedIn journal r.progress.committed
        r.progress.committed).filterMap LogEntry.applied := by
      rw [committedIn_self]
      rfl
    have hwalked : Walked (Journal.get journal) r.progress.applied r.progress.applied
        r.progress.committed := ih.walked_self { r with journal := journal } rfl rfl hkept
    have hwalk : ({ r with journal := journal } : Replica J).Accounted (released ++ [])
        acknowledged :=
      ih.walk ih.volatile ih.unparked ih.awake (Nat.le_refl _) hkept hwalked hnothing
    rwa [List.append_nil] at hwalk

/-- What is acknowledged comes off the releases. -/
theorem Accounted.outstanding_eq (h : r.Accounted released acknowledged) :
    outstanding released acknowledged =
      (committedIn r.journal r.progress.applied r.progress.committed).filterMap
        LogEntry.applied := by
  obtain ⟨done, hdone, hreleased⟩ := h.split
  have hgone : done.filter (fun effect => !(effect.appliedSlot.any acknowledged.contains)) =
      [] := by
    refine List.filter_eq_nil_iff.mpr fun effect hmem => ?_
    obtain ⟨slot, hslot, happlied⟩ := hdone effect hmem
    simpa [happlied] using hslot
  have hleft : ∀ effect ∈ (committedIn r.journal r.progress.applied
      r.progress.committed).filterMap LogEntry.applied,
      (!(effect.appliedSlot.any acknowledged.contains)) = true := by
    intro effect hmem
    obtain ⟨entry, hentry, heffect⟩ := List.mem_filterMap.mp hmem
    obtain ⟨slot, hslot, hget⟩ := List.mem_filterMap.mp hentry
    rw [List.mem_range'_1] at hslot
    have hlater : slot ∉ acknowledged := by
      intro hmem
      have := h.bounded slot hmem
      omega
    simpa [applied_slot hget heffect] using hlater
  unfold outstanding
  rw [hreleased, List.filter_append, hgone, List.filter_eq_self.mpr hleft, List.nil_append]

/-- **The law of the applied frontier** holds in every served life without an offer at the last
slot. -/
theorem served_law (h : Served (fun _ input => input.Storable) r released acknowledged) :
    r.AppliedLaw released acknowledged := by
  have haccounted := h.accounted
  obtain ⟨ranges, hlife⟩ := h.life
  have hlived : Lived False r ranges released :=
    hlife.lived fun _ _ hstorable => ⟨hstorable, fun hfalse => hfalse.elim⟩
  obtain ⟨log, hbacked⟩ := hlived.backed
  refine ⟨fun slot => haccounted.accepts hbacked, fun slot plan hplan => ?_,
    fun through plan hplan => ?_, haccounted.outstanding_eq⟩
  · obtain ⟨-, hnext⟩ := (haccounted.accepts hbacked).mp ⟨plan, hplan⟩
    exact planApplied_moves hnext.committed hplan
  · unfold planCheckpointed at hplan
    simp only at hplan
    split at hplan
    · cases hplan
    · rename_i hle
      exact Nat.le_of_not_lt hle

/-- The third operation acknowledged. -/
def acknowledgeThird : TimedInput := { time := 1, event := .applied 3 }

/-- An operation is prepared, committed and acknowledged at a fresh backup. -/
theorem served_law_third : ∃ r : Replica SegmentedLog, r.progress.applied = 3 ∧
    r.AppliedLaw [.apply 3 { msb := 0, lsb := 0 } []] [3] := by
  have hrun : (freshThird.map fun fresh =>
      let prepared := (fresh.step (prepareNext 3)).1
      let committed := (prepared.step (commitThrough 3)).1
      ((fresh.step (prepareNext 3)).2.filter Effect.isApply ++
          (prepared.step (commitThrough 3)).2.filter Effect.isApply ++
          (committed.step acknowledgeThird).2.filter Effect.isApply,
        fresh.acknowledgedBy (prepareNext 3) ++ prepared.acknowledgedBy (commitThrough 3) ++
          committed.acknowledgedBy acknowledgeThird,
        (committed.step acknowledgeThird).1.progress.applied)) =
      some ([.apply 3 { msb := 0, lsb := 0 } []], [3], 3) := by decide +kernel
  obtain ⟨fresh, hfresh, hrun⟩ := Option.map_eq_some_iff.mp hrun
  simp only [Prod.mk.injEq] at hrun
  obtain ⟨hreleased, hacknowledged, happlied⟩ := hrun
  have hthird : acknowledgeThird.Storable := by
    intro sender message hevent
    cases hevent
  have hserved : Served (fun _ input => input.Storable) _ _ _ :=
    (((Served.provision (toOption_eq_some hfresh)).step (prepareNext 3)
      (prepareNext_storable 3)).step (commitThrough 3) (commitThrough_storable 3)).step
        acknowledgeThird hthird
  rw [List.nil_append, List.nil_append, hreleased, hacknowledged] at hserved
  exact ⟨_, happlied, served_law hserved⟩

/-! ### A release that is not committed -/

theorem step_stability {J : Type} [Journal J] (r : Replica J) (input : TimedInput) :
    (r.step input).1.stability = r.stability := by
  have hfaulted : ∀ (s : Replica J) (fault : Fault),
      (s.faultNode fault).stability = s.stability := by
    intro s fault
    rcases faultNode_cases s fault with heq | ⟨progress, heq, -⟩
    · rw [heq]
    · rw [heq]
  have houtcome := step_outcome r input
  generalize r.step input = out at houtcome
  cases houtcome with
  | refused => rfl
  | faulted fault => exact hfaulted r fault
  | diverged plan hplan hlegal => exact hfaulted _ _
  | parked plan hplan hfresh hstability => rfl
  | published plan journal hplan hbase hfault hlegal hjournal => rfl

omit [LawfulJournal J] in
/-- A life in which publications take effect at once is a served one. -/
theorem Life.served {allowed : Replica J → TimedInput → Prop} {ranges : List (List LogEntry)}
    (h : Life allowed r ranges released) (hvolatile : r.stability = .volatile) :
    ∃ acknowledged, Served allowed r released acknowledged := by
  induction h with
  | provision h =>
    obtain ⟨table, journal', progress, -, -, -, -, heq⟩ := provision_data h
    rw [heq] at hvolatile
    obtain rfl : _ = Stability.volatile := hvolatile
    exact ⟨_, .provision h⟩
  | witnesses h witnesses ih =>
    obtain ⟨acknowledged, hserved⟩ := ih hvolatile
    exact ⟨_, hserved.witnesses witnesses⟩
  | step h input hallowed ih =>
    rw [step_stability] at hvolatile
    obtain ⟨acknowledged, hserved⟩ := ih hvolatile
    exact ⟨_, hserved.step input hallowed⟩
  | reclaim h hreclaims ih =>
    obtain ⟨acknowledged, hserved⟩ := ih hvolatile
    exact ⟨_, hserved.reclaim hreclaims⟩

omit [LawfulJournal J] in
theorem Served.mono {allowed allowed' : Replica J → TimedInput → Prop}
    (himp : ∀ r input, allowed r input → allowed' r input)
    (h : Served allowed r released acknowledged) : Served allowed' r released acknowledged := by
  induction h with
  | provision h => exact .provision h
  | witnesses h witnesses ih => exact ih.witnesses witnesses
  | step h input hallowed ih => exact ih.step input (himp _ _ hallowed)
  | reclaim h hreclaims ih => exact ih.reclaim hreclaims

/-- **A suffix that loses the count breaks the law**: what it releases is not what lies between the
frontiers. -/
theorem wrapped_suffix_breaks_law : ¬ ∀ (r : Replica SegmentedLog) (released : List Effect)
    (acknowledged : List Nat), Served (fun _ _ => True) r released acknowledged →
      r.AppliedLaw released acknowledged := by
  intro hall
  obtain ⟨r, ranges, released, hlife, hfed⟩ := fed_life (u64Bound - 5) (by decide)
  have hfed' : Fed r lastButOne := hfed
  obtain ⟨acknowledged, hserved⟩ := hlife.served hfed'.volatile
  obtain ⟨-, hjournal, -, hmem⟩ := hfed'.wraps
  have hlaw := hall _ _ _
    ((hserved.mono fun _ _ _ => trivial).step announceWrapped trivial)
  have hnothing : r.acknowledgedBy announceWrapped = [] := rfl
  have hlater : lastButOne ∉ acknowledged := by
    intro hin
    have hbound := hserved.accounted.bounded _ hin
    have happlied : r.progress.applied = initSlot := by
      rw [hfed'.record]
      rfl
    rw [happlied] at hbound
    exact absurd hbound (by decide)
  have houtstanding : Effect.apply lastButOne { msb := 0, lsb := 1 } [] ∈
      outstanding (released ++ (r.step announceWrapped).2.filter Effect.isApply)
        (acknowledged ++ r.acknowledgedBy announceWrapped) := by
    refine List.mem_filter.mpr ⟨List.mem_append_right _ (List.mem_filter.mpr ⟨hmem, rfl⟩), ?_⟩
    rw [hnothing, List.append_nil]
    simpa [Effect.appliedSlot] using hlater
  rw [hlaw.released, hjournal] at houtstanding
  exact hfed'.not_applied _ _ houtstanding

end Lives

end Replica

end UvrrCore
