import UvrrCore.Lifecycle

/-!
# Clean boots

What a clean verdict of the boot gate says of the lives before it. Every life that got past its
latch found all four copies rewritten, none of them stopped, and only a stop that comes after a
drain writes stopped copies again. So a stopped copy, whatever the crashes between left around it,
was written by the last life that latched.

## Main results

* `Observed.step`: what is true of a node and the calls it made, one call further.
* `boot_clean_drained`: a clean boot comes after a completed drain of the last life that
  latched, and a completed stop boots clean, unless its identity is the blank one.
* `blank_genesis_refused`: the stop of a first life latched under the blank identity.
-/

namespace UvrrCore

/-! ### Calls -/

/-- What happened to a node: in which of its lives, where that life stood, and the event. -/
structure Call where
  life : Nat
  session : Session
  event : LifeEvent

namespace Call

/-- The identity under which the call latched. -/
def latches (call : Call) : Option Nat :=
  match call.event, call.session with
  | .latchesFirst genesis .done, .first => some genesis.val
  | .latchesClean .done, .clean identity => some identity
  | .latchesDeferred _ .done, .crashed identity => NodeId.nextLife identity
  | _, _ => none

/-- Whether the call began a commit. A spent identity has no bump to write. -/
def commits (call : Call) : Bool :=
  match call.event, call.session with
  | .latchesFirst .., .first | .latchesClean _, .clean _ | .beginsStop _, .running _
  | .finishesStop _, .draining _ => true
  | .latchesDeferred .., .crashed identity => (NodeId.nextLife identity).isSome
  | _, _ => false

end Call

/-- A life latched under the identity. -/
def LatchedIn (calls : List Call) (identity life : Nat) : Prop :=
  ∃ call ∈ calls, call.life = life ∧ call.latches = some identity

/-- **A completed drain** of the last life that latched: it was drained, and after that it came to
write its last marker. -/
structure Drained (calls : List Call) (identity life : Nat) : Prop where
  latched : LatchedIn calls identity life
  last : ∀ call ∈ calls, call.latches ≠ none → call.life ≤ life
  finishing : ∃ before after outcome,
    calls = before ++ ⟨life, .draining identity, .finishesStop outcome⟩ :: after ∧
      ⟨life, .halting identity, .drains true⟩ ∈ before

theorem LatchedIn.append {calls : List Call} {identity life : Nat}
    (h : LatchedIn calls identity life) (more : List Call) :
    LatchedIn (calls ++ more) identity life := by
  obtain ⟨call, hmem, hcall⟩ := h
  exact ⟨call, List.mem_append_left more hmem, hcall⟩

/-- It stays so until another life latches. -/
theorem Drained.snoc {calls : List Call} {identity life : Nat} (h : Drained calls identity life)
    {call : Call} (hcall : call.latches = none) : Drained (calls ++ [call]) identity life := by
  refine ⟨h.latched.append _, ?_, ?_⟩
  · intro other hmem hlatches
    rcases List.mem_append.mp hmem with hold | hnew
    · exact h.last other hold hlatches
    · rw [List.mem_singleton.mp hnew] at hlatches
      exact absurd hcall hlatches
  · obtain ⟨before, after, outcome, hcalls, hdrain⟩ := h.finishing
    refine ⟨before, after ++ [call], outcome, ?_, hdrain⟩
    rw [hcalls, List.append_assoc, List.cons_append]

/-! ### Stopped copies -/

namespace MarkerStore

theorem stopped_pos_iff {store : MarkerStore} {identity : Nat} :
    0 < store.stopped identity ↔
      ∃ copies k, store = some copies ∧ copies.copies k = ⟨identity, .stopped⟩ := by
  constructor
  · intro hpos
    cases store with
    | none => exact absurd hpos (Nat.lt_irrefl 0)
    | some copies =>
      obtain ⟨copy, hmem, hstopped⟩ := List.countP_pos_iff.mp hpos
      obtain ⟨k, hk⟩ := List.mem_ofFn.mp hmem
      simp only [SuperblockCopies.carriesStopped, Bool.and_eq_true, beq_iff_eq] at hstopped
      refine ⟨copies, k, rfl, ?_⟩
      rw [hk, ← hstopped.1, ← hstopped.2]
  · intro hcopy
    obtain ⟨copies, k, hstore, hk⟩ := hcopy
    rw [hstore]
    refine List.countP_pos_iff.mpr ⟨copies.copies k, List.mem_ofFn.mpr ⟨k, rfl⟩, ?_⟩
    rw [hk]
    simp [SuperblockCopies.carriesStopped]

/-- A stopped copy was stopped before the write or is what it wrote. -/
theorem stopped_overwrite {store : MarkerStore} {identity other : Nat} {marker : Marker}
    {written : Fin 4 → Bool}
    (h : 0 < (store.overwrite (SuperblockCopies.uniform identity marker) written).stopped other) :
    0 < store.stopped other ∨ (marker = .stopped ∧ other = identity) := by
  obtain ⟨copies, k, hstore, hk⟩ := stopped_pos_iff.mp h
  unfold MarkerStore.overwrite at hstore
  split at hstore
  · exact Or.inl (stopped_pos_iff.mpr ⟨copies, k, hstore, hk⟩)
  · rw [← Option.some.inj hstore] at hk
    by_cases hwritten : written k = true
    · simp only [hwritten, if_true, SuperblockCopies.uniform, CopyState.mk.injEq] at hk
      exact Or.inr ⟨hk.2, hk.1.symm⟩
    · cases store with
      | none => simp [hwritten, SuperblockCopies.uniform] at hk
      | some old =>
        simp only [hwritten, Option.getD_some] at hk
        exact Or.inl (stopped_pos_iff.mpr ⟨old, k, rfl, hk⟩)

theorem stopped_of_uniform {identity other : Nat} {marker : Marker}
    (h : 0 < MarkerStore.stopped (some (SuperblockCopies.uniform identity marker)) other) :
    marker = .stopped ∧ other = identity := by
  obtain ⟨copies, k, hstore, hk⟩ := stopped_pos_iff.mp h
  rw [← Option.some.inj hstore] at hk
  simp only [SuperblockCopies.uniform, CopyState.mk.injEq] at hk
  exact ⟨hk.2, hk.1.symm⟩

theorem stopped_of_boot {store : MarkerStore} {identity : Nat}
    (h : boot store = some (.clean identity)) : 2 ≤ store.stopped identity := by
  cases store with
  | none => cases h
  | some copies =>
    have hholds : MarkerStore.Holds (fun _ => True) (some copies) := ⟨copies, rfl, fun _ => trivial⟩
    rcases hholds.boot h with ⟨other, hclean, -, hstopped⟩ | ⟨other, hcrashed, -⟩
    · cases hclean
      exact hstopped
    · cases hcrashed

end MarkerStore

/-- Four stopped copies boot clean. The blank identity forms no cohort. -/
theorem boot_stopped (identity : Nat) :
    boot (some (SuperblockCopies.uniform identity .stopped)) =
      if identity = 0 then none else some (.clean identity) := by
  have hcarries : ∀ other, (SuperblockCopies.uniform identity .stopped).toList.countP
      (SuperblockCopies.carries other) = if identity = other then 4 else 0 := by
    intro other
    by_cases heq : identity = other
    · simp [SuperblockCopies.toList, SuperblockCopies.uniform, SuperblockCopies.carries, heq]
    · simp [SuperblockCopies.toList, SuperblockCopies.uniform, SuperblockCopies.carries, heq]
  have hstopped : (SuperblockCopies.uniform identity .stopped).stoppedCopies identity = 4 := by
    simp [SuperblockCopies.stoppedCopies, SuperblockCopies.toList, SuperblockCopies.uniform,
      SuperblockCopies.carriesStopped]
  by_cases hblank : identity = 0
  · have hnone : (SuperblockCopies.uniform identity .stopped).classify = none := by
      refine SuperblockCopies.classify_eq_none.mpr ?_
      intro other hother
      have hne : identity ≠ other := fun heq => hother (heq.symm.trans hblank)
      rw [hcarries, if_neg hne]
      exact Nat.zero_lt_two
    simp only [boot, hnone, if_pos hblank]
  · have hclass := SuperblockCopies.classify_of_highest hblank
      (by rw [hcarries, if_pos rfl]; decide)
      (by
        intro other hlt
        rw [hcarries, if_neg (Nat.ne_of_lt hlt)]
        exact Nat.zero_lt_two)
    rw [hstopped, if_pos (by decide)] at hclass
    simp only [boot, hclass, if_neg hblank]

/-! ### What every node keeps -/

/-- What a session says of the calls of its life. -/
def Session.Vouches (session : Session) (calls : List Call) (life : Nat) : Prop :=
  match session with
  | .running identity | .halting identity => LatchedIn calls identity life
  | .draining identity =>
    LatchedIn calls identity life ∧ ⟨life, .halting identity, .drains true⟩ ∈ calls
  | .down | .first | .clean _ | .crashed _ | .halted => True

theorem Session.Vouches.append {session : Session} {calls : List Call} {life : Nat}
    (h : session.Vouches calls life) (more : List Call) : session.Vouches (calls ++ more) life := by
  cases session with
  | down | first | clean identity | crashed identity | halted => trivial
  | running identity | halting identity => exact LatchedIn.append h more
  | draining identity => exact ⟨h.1.append more, List.mem_append_left more h.2⟩

namespace LifeHistory

/-- The call an event is to a node. -/
def callOf (h : LifeHistory) (event : LifeEvent) : Call :=
  { life := h.past.length, session := h.session, event := event }

/-- The calls of a node that goes through events. -/
def calls : LifeHistory → List LifeEvent → List Call
  | _, [] => []
  | h, event :: events => h.callOf event :: (h.step event).calls events

/-- **A node and the calls it made.** The session vouches for what its life did, and a stopped copy
for a completed drain. -/
structure Observed (h : LifeHistory) (calls : List Call) : Prop where
  numbered : ∀ call ∈ calls, call.life ≤ h.past.length
  session : h.session.Vouches calls h.past.length
  stopped : ∀ identity, 0 < h.store.stopped identity → ∃ life, Drained calls identity life

theorem observed_fresh : fresh.Observed [] := by
  refine ⟨?_, trivial, ?_⟩
  · intro call hmem
    exact absurd hmem List.not_mem_nil
  · intro identity hpos
    exact absurd hpos (Nat.lt_irrefl 0)

section

variable {h : LifeHistory} {calls : List Call} {event : LifeEvent}

theorem Observed.endLife (ho : h.Observed calls) : h.endLife.Observed calls := by
  refine ⟨?_, trivial, ho.stopped⟩
  intro call hmem
  have hlife := ho.numbered call hmem
  show call.life ≤ (h.past ++ [_]).length
  rw [List.length_append, List.length_singleton]
  omega

theorem Observed.numbered_snoc (ho : h.Observed calls) (event : LifeEvent) :
    ∀ call ∈ calls ++ [h.callOf event], call.life ≤ h.past.length := by
  intro call hmem
  rcases List.mem_append.mp hmem with hold | hnew
  · exact ho.numbered call hold
  · rw [List.mem_singleton.mp hnew]
    exact Nat.le_refl _

/-- A call that neither latches nor writes stopped copies. -/
theorem Observed.snoc (ho : h.Observed calls) (hlatches : (h.callOf event).latches = none)
    {store : MarkerStore}
    (hstore : ∀ identity, 0 < store.stopped identity → 0 < h.store.stopped identity) :
    ({ h with store := store } : LifeHistory).Observed (calls ++ [h.callOf event]) := by
  refine ⟨ho.numbered_snoc event, ho.session.append _, ?_⟩
  intro identity hpos
  obtain ⟨life, hdrained⟩ := ho.stopped identity (hstore identity hpos)
  exact ⟨life, hdrained.snoc hlatches⟩

theorem Observed.keep (ho : h.Observed calls) (hlatches : (h.callOf event).latches = none) :
    h.Observed (calls ++ [h.callOf event]) :=
  ho.snoc hlatches fun _ hpos => hpos

/-- A commit that did not return. -/
theorem Observed.torn (ho : h.Observed calls) (hlatches : (h.callOf event).latches = none)
    {marker : Marker} (hmarker : marker ≠ .stopped) (identity : Nat) (written : Fin 4 → Bool) :
    ({ h with store := h.store.overwrite (SuperblockCopies.uniform identity marker) written } :
      LifeHistory).Observed (calls ++ [h.callOf event]) := by
  refine ho.snoc hlatches ?_
  intro other hpos
  rcases MarkerStore.stopped_overwrite hpos with hold | hnew
  · exact hold
  · exact absurd hnew.1 hmarker

/-- A latch that returned leaves no copy stopped. -/
theorem Observed.latch (ho : h.Observed calls) {identity : Nat} {marker : Marker}
    {outcome : CommitOutcome} (hmarker : marker ≠ .stopped)
    (htorn : outcome ≠ .done → (h.callOf event).latches = none)
    (hdone : outcome = .done → (h.callOf event).latches = some identity) :
    (h.commit identity marker outcome (run identity)).Observed (calls ++ [h.callOf event]) := by
  cases outcome with
  | done =>
    refine ⟨ho.numbered_snoc event, ?_, ?_⟩
    · exact ⟨h.callOf event, List.mem_append_right _ (List.mem_singleton.mpr rfl), rfl, hdone rfl⟩
    · intro other hpos
      exact absurd (MarkerStore.stopped_of_uniform hpos).1 hmarker
  | failed written => exact ho.torn (htorn (by simp)) hmarker identity written
  | crashed written => exact (ho.torn (htorn (by simp)) hmarker identity written).endLife

theorem Observed.beginStop (ho : h.Observed calls) {identity : Nat} {outcome : CommitOutcome}
    (hsession : h.session = .running identity) (hlatches : (h.callOf event).latches = none) :
    (h.commit identity .stopping outcome fun h =>
      { h with session := .halting identity }).Observed (calls ++ [h.callOf event]) := by
  have hvouches := ho.session
  rw [hsession] at hvouches
  cases outcome with
  | done =>
    refine ⟨ho.numbered_snoc event, hvouches.append _, ?_⟩
    intro other hpos
    cases (MarkerStore.stopped_of_uniform hpos).1
  | failed written => exact ho.torn hlatches (by decide) identity written
  | crashed written => exact (ho.torn hlatches (by decide) identity written).endLife

/-- **The last marker of a life** is written by the last life that latched, and after its drain. -/
theorem Observed.finishStop (ho : h.Observed calls) {identity : Nat} {outcome : CommitOutcome}
    (hsession : h.session = .draining identity) :
    (h.commit identity .stopped outcome fun h =>
      { h with session := .halted, now := { h.now with completed := true } }).Observed
        (calls ++ [h.callOf (.finishesStop outcome)]) := by
  have hvouches := ho.session
  rw [hsession] at hvouches
  have hcall : h.callOf (.finishesStop outcome) =
      ⟨h.past.length, .draining identity, .finishesStop outcome⟩ := by
    rw [callOf, hsession]
  have hlatches : (h.callOf (.finishesStop outcome)).latches = none := by
    rw [hcall]
    rfl
  have hnumbered := ho.numbered_snoc (.finishesStop outcome)
  have hdrained : Drained (calls ++ [h.callOf (.finishesStop outcome)]) identity h.past.length := by
    refine ⟨hvouches.1.append _, fun call hmem _ => hnumbered call hmem, ?_⟩
    exact ⟨calls, [], outcome, by rw [hcall], hvouches.2⟩
  have hnew : ∀ written other,
      0 < (h.store.overwrite (SuperblockCopies.uniform identity .stopped) written).stopped other →
        ∃ life, Drained (calls ++ [h.callOf (.finishesStop outcome)]) other life := by
    intro written other hpos
    rcases MarkerStore.stopped_overwrite hpos with hold | ⟨-, rfl⟩
    · obtain ⟨life, hlife⟩ := ho.stopped other hold
      exact ⟨life, hlife.snoc hlatches⟩
    · exact ⟨_, hdrained⟩
  have hkept := ho.session.append [h.callOf (.finishesStop outcome)]
  cases outcome with
  | done =>
    refine ⟨hnumbered, trivial, ?_⟩
    intro other hpos
    obtain ⟨-, rfl⟩ := MarkerStore.stopped_of_uniform hpos
    exact ⟨_, hdrained⟩
  | failed written => exact ⟨hnumbered, hkept, hnew written⟩
  | crashed written =>
    have htorn : ({ h with
        store := h.store.overwrite (SuperblockCopies.uniform identity .stopped) written } :
        LifeHistory).Observed (calls ++ [h.callOf (.finishesStop (.crashed written))]) :=
      ⟨hnumbered, hkept, hnew written⟩
    exact htorn.endLife

end

/-- **One event.** -/
theorem Observed.step {h : LifeHistory} {calls : List Call} (ho : h.Observed calls)
    (event : LifeEvent) : (h.step event).Observed (calls ++ [h.callOf event]) := by
  unfold LifeHistory.step
  split
  · rename_i hs
    have hlatches : (h.callOf .boots).latches = none := rfl
    split
    · exact ho.keep hlatches
    · rename_i session hboot
      have hkept := ho.keep hlatches
      refine ⟨hkept.numbered, ?_, hkept.stopped⟩
      have hvouches : ∀ life, session.Vouches (calls ++ [h.callOf .boots]) life := by
        unfold boot at hboot
        intro life
        split at hboot
        · rw [← Option.some.inj hboot]
          trivial
        · split at hboot
          · cases hboot
          · rw [← Option.some.inj hboot]
            trivial
          · rw [← Option.some.inj hboot]
            trivial
      exact hvouches _
  · rename_i genesis outcome hs
    refine ho.latch (by decide) ?_ ?_
    · intro hne
      cases outcome with
      | done => exact absurd rfl hne
      | failed written | crashed written => rfl
    · rintro rfl
      simp only [callOf, hs, Call.latches]
  · rename_i outcome identity hs
    refine ho.latch (by decide) ?_ ?_
    · intro hne
      cases outcome with
      | done => exact absurd rfl hne
      | failed written | crashed written => rfl
    · rintro rfl
      simp only [callOf, hs, Call.latches]
  · rename_i identity hs
    have hkept : h.Observed (calls ++ [h.callOf .runsPair]) := ho.keep rfl
    split
    · exact hkept
    · exact ⟨hkept.numbered, hkept.session, hkept.stopped⟩
  · rename_i witness outcome identity hs
    have htorn : outcome ≠ .done → (h.callOf (.latchesDeferred witness outcome)).latches = none := by
      intro hne
      cases outcome with
      | done => exact absurd rfl hne
      | failed written | crashed written => rfl
    split
    · rename_i hnone
      refine ho.keep ?_
      cases outcome with
      | done => simp only [callOf, hs, Call.latches, hnone]
      | failed written | crashed written => rfl
    · rename_i new hnew
      refine ho.latch (by decide) htorn ?_
      rintro rfl
      simp only [callOf, hs, Call.latches, hnew]
  · rename_i outcome identity hs
    exact ho.beginStop hs rfl
  · rename_i succeeds identity hs
    have hkept : h.Observed (calls ++ [h.callOf (.drains succeeds)]) := ho.keep rfl
    split
    · rename_i hsucceeds
      refine ⟨hkept.numbered, ?_, hkept.stopped⟩
      have hvouches := hkept.session
      rw [hs] at hvouches
      refine ⟨hvouches, List.mem_append_right _ (List.mem_singleton.mpr ?_)⟩
      rw [callOf, hs, hsucceeds]
    · exact hkept
  · rename_i outcome identity hs
    exact ho.finishStop hs
  · exact ho.keep rfl
  · exact (ho.keep rfl).endLife
  · rename_i hfirst hclean _ hdeferred _ _ _ _
    refine ho.keep ?_
    unfold Call.latches callOf
    split
    · rename_i genesis hevent hsession
      exact (hfirst genesis .done hevent hsession).elim
    · rename_i identity hevent hsession
      exact (hclean .done identity hevent hsession).elim
    · rename_i witness identity hevent hsession
      exact (hdeferred witness .done identity hevent hsession).elim
    · rfl

/-! ### Runs -/

theorem calls_append (h : LifeHistory) (events more : List LifeEvent) :
    h.calls (events ++ more) = h.calls events ++ (events.foldl LifeHistory.step h).calls more := by
  induction events generalizing h with
  | nil => rfl
  | cons event events ih =>
    show h.callOf event :: (h.step event).calls (events ++ more) = _
    rw [ih]
    rfl

/-- A call of a run is of an event of it, and what comes after is of the events after. -/
theorem exists_of_calls {h : LifeHistory} {events : List LifeEvent} {before after : List Call}
    {call : Call} (hcalls : h.calls events = before ++ call :: after) :
    ∃ front event back, events = front ++ event :: back ∧
      call = (front.foldl LifeHistory.step h).callOf event ∧
      after = ((front.foldl LifeHistory.step h).step event).calls back := by
  induction before generalizing h events with
  | nil =>
    cases events with
    | nil => cases hcalls
    | cons event events =>
      obtain ⟨hcall, hafter⟩ := List.cons.inj hcalls
      exact ⟨[], event, events, rfl, hcall.symm, hafter.symm⟩
  | cons first before ih =>
    cases events with
    | nil => cases hcalls
    | cons event events =>
      obtain ⟨-, hrest⟩ := List.cons.inj hcalls
      obtain ⟨front, later, back, hevents, hcall, hafter⟩ := ih hrest
      refine ⟨event :: front, later, back, ?_, hcall, hafter⟩
      rw [hevents, List.cons_append]

theorem observed_run (events : List LifeEvent) :
    (events.foldl LifeHistory.step fresh).Observed (fresh.calls events) := by
  induction events using List.reverseRecOn with
  | nil => exact observed_fresh
  | append_singleton events event ih =>
    rw [List.foldl_append, calls_append]
    exact ih.step event

/-- Only a commit writes the store. -/
theorem store_of_not_commits {h : LifeHistory} {event : LifeEvent}
    (hcommits : (h.callOf event).commits = false) : (h.step event).store = h.store := by
  unfold LifeHistory.step
  split
  · split
    · rfl
    · rfl
  · rename_i hs
    simp [callOf, Call.commits, hs] at hcommits
  · rename_i hs
    simp [callOf, Call.commits, hs] at hcommits
  · split
    · rfl
    · rfl
  · rename_i hs
    simp only [callOf, Call.commits, hs, Option.isSome_eq_false_iff, Option.isNone_iff_eq_none]
      at hcommits
    rw [hcommits]
  · rename_i hs
    simp [callOf, Call.commits, hs] at hcommits
  · split
    · rfl
    · rfl
  · rename_i hs
    simp [callOf, Call.commits, hs] at hcommits
  · rfl
  · rfl
  · rfl

theorem store_of_none_commits {h : LifeHistory} {events : List LifeEvent}
    (hcommits : ∀ call ∈ h.calls events, call.commits = false) :
    (events.foldl LifeHistory.step h).store = h.store := by
  induction events generalizing h with
  | nil => rfl
  | cons event events ih =>
    obtain ⟨hfirst, hrest⟩ := List.forall_mem_cons.mp hcommits
    rw [List.foldl_cons, ih hrest, store_of_not_commits hfirst]

/-- **Clean boots are drained.** Whenever the gate finds a clean stop, the last life that latched
latched the identity it names, was drained, and came to its last marker after that. -/
def CleanBootsDrained (events : List LifeEvent) : Prop :=
  ∀ identity, boot (events.foldl LifeHistory.step fresh).store = some (.clean identity) →
    ∃ life, Drained (fresh.calls events) identity life

/-- **Completed stops boot** as they are said to: once the last marker of a life is written and
nothing else is, the gate gives the verdict. -/
def CompletedStopsBoot (verdict : Nat → Option Session) (events : List LifeEvent) : Prop :=
  ∀ before after life identity,
    fresh.calls events = before ++ ⟨life, .draining identity, .finishesStop .done⟩ :: after →
      (∀ call ∈ after, call.commits = false) →
        boot (events.foldl LifeHistory.step fresh).store = verdict identity

/-- **The boot gate over whole histories.** A clean boot implies a completed drain of the last life
that latched, and a completed stop boots clean under its identity. The blank identity is none: a
stop under it leaves a marker set without a cohort, which the gate refuses. -/
theorem boot_clean_drained (events : List LifeEvent) :
    CleanBootsDrained events ∧
      CompletedStopsBoot (fun identity => if identity = 0 then none else some (.clean identity))
        events := by
  refine ⟨?_, ?_⟩
  · intro identity hboot
    refine (observed_run events).stopped identity ?_
    exact Nat.lt_of_lt_of_le Nat.zero_lt_two (MarkerStore.stopped_of_boot hboot)
  · intro before after life identity hcalls hafter
    obtain ⟨front, event, back, rfl, hcall, rfl⟩ := exists_of_calls hcalls
    simp only [callOf, Call.mk.injEq] at hcall
    obtain ⟨-, hsession, rfl⟩ := hcall
    rw [List.foldl_append, List.foldl_cons, store_of_none_commits hafter]
    have hstore : ((front.foldl LifeHistory.step fresh).step (.finishesStop .done)).store =
        some (SuperblockCopies.uniform identity .stopped) := by
      simp only [LifeHistory.step, ← hsession, LifeHistory.commit]
    rw [hstore, boot_stopped]

/-- A first life that latches the blank identity and stops: the next boot refuses. -/
theorem blank_genesis_refused :
    ¬(∀ events : List LifeEvent, CleanBootsDrained events ∧
      CompletedStopsBoot (fun identity => some (.clean identity)) events) := by
  intro hall
  have hboots := (hall [.boots, .latchesFirst ⟨0, by decide⟩ .done, .beginsStop .done,
    .drains true, .finishesStop .done]).2 (fresh.calls [.boots, .latchesFirst ⟨0, by decide⟩ .done,
      .beginsStop .done, .drains true]) [] 0 0 rfl fun _ hmem => absurd hmem List.not_mem_nil
  revert hboots
  decide

end LifeHistory

end UvrrCore
