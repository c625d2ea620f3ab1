import UvrrCore.Emitted

/-!
# What a node sends could be stored

An offered suffix is checked slot by slot, and the check starts over behind the last slot of the
slot space. No log takes an entry there, and none is ever sent: every entry of a message comes
from the journal of its sender, or from a report its sender collected.

## Main results

* `plan_storing`: what a plan of a fresh input sends could be stored.
* `Stocks.step`: so could the reports it collects.
-/

namespace UvrrCore

/-- Entries that all have a slot after them. -/
def Fitting (entries : List LogEntry) (_accepted : Nat) : Prop :=
  ∀ entry ∈ entries, entry.slot + 1 < u64Bound

theorem Fitting.nil (accepted : Nat) : Fitting [] accepted := by
  intro entry hmem
  cases hmem

/-- A message that is sent could be stored. -/
def Effect.Storable : Effect → Prop
  | .send _ _ message => message.Storable
  | .persist _ | .apply _ _ _ | .adminResponse _ => True

/-- Everything that is sent could be stored. -/
def Storing (effects : List Effect) : Prop := ∀ effect ∈ effects, effect.Storable

namespace Storing

variable {xs ys : List Effect}

theorem nil : Storing [] := fun _ hmem => nomatch hmem

theorem append (hx : Storing xs) (hy : Storing ys) : Storing (xs ++ ys) := by
  intro effect hmem
  rcases List.mem_append.mp hmem with hmem | hmem
  · exact hx effect hmem
  · exact hy effect hmem

end Storing

namespace Replica

variable {J : Type} [Journal J]

/-- **What a node has to send from could be stored**: the entries of its journal and the reports
of its open attempt. -/
structure Stocks (r : Replica J) : Prop where
  journal : ∀ slot entry, Journal.get r.journal slot = some entry → entry.slot + 1 < u64Bound
  attempt : ∀ attempt, r.viewChange = some attempt → attempt.Reported Fitting

variable {r : Replica J} {plan : PlannedTransition} {kind : InputKind} {time : Nat}

/-! ### Suffixes -/

theorem journalTail_fitting {journal : J}
    (h : ∀ slot entry, Journal.get journal slot = some entry → entry.slot + 1 < u64Bound)
    (budget cursor bytes : Nat) : Fitting (journalTail journal budget cursor bytes) cursor := by
  induction cursor generalizing bytes with
  | zero =>
    unfold journalTail journalTail.tailAt
    simp only
    split
    · exact Fitting.nil _
    · split
      · exact Fitting.nil _
      · rename_i entry hget
        split
        · exact Fitting.nil _
        · intro other hmem
          rw [List.nil_append, List.mem_singleton] at hmem
          rw [hmem]
          exact h 0 entry hget
  | succ cursor ih =>
    unfold journalTail journalTail.tailAt
    simp only
    split
    · exact Fitting.nil _
    · split
      · exact Fitting.nil _
      · rename_i entry hget
        split
        · exact Fitting.nil _
        · intro other hmem
          rcases List.mem_append.mp hmem with hmem | hmem
          · exact ih _ other hmem
          · rw [List.mem_singleton.mp hmem]
            exact h _ entry hget

/-- A packed suffix is made of entries of the overlay and of the journal. -/
theorem Stocks.boundedSuffix (h : r.Stocks) {overlay : List LogEntry} {frontier : Nat}
    (hoverlay : Fitting overlay frontier) :
    Fitting (r.boundedSuffix frontier overlay) frontier := by
  unfold Replica.boundedSuffix
  simp only
  have hpicked := takeFitting_spec r.knobs.viewChangeBudget 0 overlay.reverse
  generalize takeFitting r.knobs.viewChangeBudget 0 overlay.reverse = fitting at hpicked
  intro entry hmem
  rcases List.mem_append.mp hmem with hmem | hmem
  · split at hmem
    · exact journalTail_fitting h.journal _ _ _ entry hmem
    · cases hmem
  · exact hoverlay entry (List.mem_reverse.mp (hpicked.subset (List.mem_reverse.mp hmem)))

theorem Stocks.ownEvidence (h : r.Stocks) :
    Fitting r.ownEvidence.suffix r.ownEvidence.accepted := by
  refine h.boundedSuffix (show Fitting [] _ from ?_)
  intro _ hmem
  cases hmem

theorem Stocks.packChunk [LawfulJournal J] (h : r.Stocks) (budget left slot bytes through : Nat) :
    Fitting (packChunk r.journal budget left slot bytes) through :=
  fun entry hmem => h.journal entry.slot entry
    ((packChunk_held r.journal budget left slot bytes).2 entry hmem)

/-! ### Plans -/

variable [LawfulJournal J]

/-- A replica that has only storable entries to send from sends only storable messages. -/
theorem Stocks.licence (h : r.Stocks) : r.Licence Fitting fun _ => Message.Storable where
  plain := by
    intro record message hplain
    unfold Message.Storable
    cases hbody : message.body <;> rw [hbody] at hplain <;> trivial
  acknowledges := fun _ => trivial
  fences := fun _ => trivial
  reports := by
    intro record message retained accepted committed suffix kind proof hbody hsuffix
    unfold Message.Storable
    rw [hbody]
    exact hsuffix
  announces := fun _ hsuffix => hsuffix
  serves := h.packChunk _ _ _ _ 0
  packs := h.boundedSuffix
  bare := Fitting.nil _
  collected := h.attempt

omit [Journal J] [LawfulJournal J] in
theorem carries_of_storable {message : Message} (h : message.Storable) :
    message.Reports Fitting := by
  intro retained accepted committed suffix kind proof hbody
  unfold Message.Storable at h
  rw [hbody] at h
  exact h

/-- **What a plan of a fresh input sends could be stored.** -/
theorem plan_storing (hr : r.Stocks) {input : TimedInput} (hstorable : input.Storable)
    (hfresh : ∀ revision result, input.event ≠ .stabilityConfirmation revision result)
    (h : r.plan input = .ok plan) : Storing plan.effects := by
  intro effect hmem
  have hsays := plan_speaks hr.licence
    (fun sender message hevent => carries_of_storable (hstorable sender message hevent)) hfresh h
    effect hmem
  cases effect with
  | send recipient era message => exact hsays
  | _ => trivial

/-! ### Through a step -/

/-- What is given of an input whose entries could be stored. -/
def storingGiven (input : TimedInput) : Given where
  shape := Fitting
  shorter := fun _ _ => True
  kept := Message.Storable
  uncut := False
  width := input.event.appends
  acknowledges := True

omit [Journal J] [LawfulJournal J] in
theorem admits_fitting {given : Given} (hshape : given.shape = Fitting) {message : Message}
    (h : message.Storable) : given.Admits message := by
  unfold Message.Storable at h
  unfold Given.Admits
  rw [hshape]
  cases hbody : message.body <;> rw [hbody] at h <;>
    first
    | trivial
    | exact fun _ => h

omit [LawfulJournal J] in
theorem Stocks.holds (hr : r.Stocks) (hoffer : r.OfferStorable) {input : TimedInput}
    (hstorable : input.Storable) : r.Holds (storingGiven input) input where
  reported := ⟨hr.ownEvidence, hr.attempt⟩
  offer := fun offer hstalled =>
    ⟨hoffer offer hstalled, admits_fitting rfl (hoffer offer hstalled)⟩
  message := fun sender message hevent =>
    ⟨hstorable sender message hevent, admits_fitting rfl (hstorable sender message hevent)⟩
  views := fitViews_of_any fun _ _ => trivial
  uncut := fun hfalse => hfalse.elim
  width := Nat.le_refl _
  acknowledges := fun _ => trivial

omit [LawfulJournal J] in
/-- **The reports a replica collects could be stored**, while nothing is parked. -/
theorem Stocks.step (hr : r.Stocks) (hoffer : r.OfferStorable) (hvolatile : r.stability = .volatile)
    {input : TimedInput} (hstorable : input.Storable)
    (hfresh : ∀ revision result, input.event ≠ .stabilityConfirmation revision result) :
    ∀ attempt, (r.step input).1.viewChange = some attempt → attempt.Reported Fitting := by
  have houtcome := step_outcome r input
  generalize r.step input = out at houtcome
  have hfault : ∀ (r' : Replica J) fault, r'.viewChange = r.viewChange →
      ∀ attempt, (r'.faultNode fault).viewChange = some attempt → attempt.Reported Fitting := by
    intro r' fault hsame attempt hsome
    rcases faultNode_cases r' fault with heq | ⟨progress, heq, -⟩
    · rw [heq, hsame] at hsome
      exact hr.attempt attempt hsome
    · rw [heq] at hsome
      exact hr.attempt attempt (hsame ▸ hsome)
  cases houtcome with
  | refused => exact hr.attempt
  | faulted fault => exact hfault r fault rfl
  | diverged plan hplan hlegal => exact hfault { r with parked := none } _ rfl
  | parked plan hplan hcompletion hstability hnone => exact absurd hvolatile hstability
  | published plan journal hplan hbase hfault hlegal hjournal =>
    have hdrafted := (hr.holds hoffer hstorable).drafted hfresh hplan
    exact installed_reported (r := { r with parked := none }) hr.attempt hdrafted.reports

end Replica

end UvrrCore
