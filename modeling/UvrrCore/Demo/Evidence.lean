import UvrrCore.Demo.Vouched

/-!
# What retires an entry of the ledger

Three of the four rules of the ledger have their evidence in what the answering node vouches for.
The fourth retires a commit by a later acknowledgement. It is sound where the acknowledging node
took the frontier before, as it does when the prepare it acknowledges carries it. With several
prepares under way the acknowledgement of a later one may come from a node that knows of no commit.

## Main results

* `World.Sound.step`: one event keeps the world sound.
* `relay_sent`: a relay sends nothing that was not sent before.
* `evidenced_of_abreast`: where no acknowledgement outruns a commit, the ledgers let go on evidence
  only.
-/

namespace UvrrCore

namespace Demo

open Replica

namespace DemoNode

variable {n : DemoNode}

/-! ### Evidence -/

/-- **A node has processed what an entry carried**: a prepare, by accepting its slot in its ballot;
a commit, by committing its slot, unless it no longer holds the slot; a fence or a report, by
entering its ballot or a later one. -/
def Processed (n : DemoNode) (entry : Datagram) : Prop :=
  match entry.tag with
  | .prepare => ∃ t ∈ n.trail, t.before.progress.current = entry.ballot ∧
      entry.slot ≤ t.plan.candidate.accepted
  | .commit => entry.slot ≤ n.replica.progress.committed ∨
      n.replica.progress.accepted < entry.slot
  | .startViewChange | .doViewChange => entry.ballot ≤ n.replica.progress.current
  | _ => True

/-- A node took a frontier through a slot. -/
def took (n : DemoNode) (slot : Nat) : Bool := n.trail.any fun t => t.takes slot

theorem Sound.took_committed (hs : n.Sound) {slot : Nat} (h : n.took slot = true) :
    slot ≤ n.replica.progress.committed := by
  obtain ⟨t, hmem, htakes⟩ := List.any_eq_true.mp h
  obtain ⟨hplan, hfault⟩ := hs.planned t hmem
  exact (Transition.takes_committed hplan hfault htakes).trans (hs.committed t hmem)

/-- **What a message of its addressee says of an entry it answers.** -/
theorem Sound.processed (hs : n.Sound) {flight : Flight} {entry : Datagram}
    (hvouches : n.Vouches flight.message) (hanswers : flight.answers entry = true)
    (htook : entry.tag = .commit → n.took entry.slot = true) :
    n.Processed entry := by
  unfold Vouches at hvouches
  unfold Processed
  obtain ⟨-, hera, hprepare | hcommit | hfence | hreport⟩ := Ledger.answers_rules.mp hanswers
  · obtain ⟨htag, hresponse, hview, hslot⟩ := hprepare
    rw [hresponse] at hvouches
    rw [htag]
    obtain ⟨t, hmem, hballot, hle⟩ := hvouches
    exact ⟨t, hmem, hballot.trans (Ballot.ext hera.symm hview), hslot.trans hle⟩
  · rw [hcommit.1]
    exact .inl (hs.took_committed (htook hcommit.1))
  · obtain ⟨htag, hresponse, hview⟩ := hfence
    rw [hresponse] at hvouches
    rw [htag]
    have hballot : entry.ballot = flight.message.header.view := Ballot.ext hera hview.symm
    exact hballot.le.trans hvouches
  · obtain ⟨htag, hresponse, hview⟩ := hreport
    rw [hresponse] at hvouches
    rw [htag]
    have hballot : entry.ballot ≤ flight.message.header.view := .inr ⟨hera, hview⟩
    exact hballot.trans hvouches

end DemoNode

/-! ### Runs -/

namespace World

/-- The addressee of an entry has processed what it carried. -/
def Processed (w : World) (entry : Datagram) : Prop :=
  ∃ n, w.nodes entry.recipient = some n ∧ n.Processed entry

/-- The ledger of a node once it was offered what an event delivers. -/
def heard (w : World) (event : Event) (n : DemoNode) : Ledger :=
  match w.delivered event with
  | none => n.ledger
  | some flight =>
    if flight.recipient = n.own then n.hears flight.sender flight.message else n.ledger

/-- **The ledgers let go on evidence only**: what a datagram answers was processed by its
addressee, and what leaves a ledger otherwise is repeated or dropped by the bound. -/
structure Evidenced (json : RequestJson) (w : World) (event : Event) : Prop where
  retired : ∀ flight n, w.delivered event = some flight → w.nodes flight.recipient = some n →
    ∀ entry ∈ n.ledger.unacked, flight.answers entry = true → w.Processed entry
  kept : ∀ own n n', w.nodes own = some n → (w.step json event).nodes own = some n' →
    ∀ entry ∈ n.ledger.unacked, entry ∈ n'.ledger.unacked ∨
      (∃ flight, w.delivered event = some flight ∧ flight.recipient = own ∧
        flight.answers entry = true) ∨
      ∃ datagrams, n'.released = n.released ++ datagrams ∧
        (w.heard event n).Displaces datagrams entry

/-- An acknowledgement outruns a commit: it reaches a ledger that holds a commit of its ballot at an
earlier slot, and its sender has not taken that frontier. -/
def outruns (w : World) (event : Event) : Bool :=
  match w.delivered event with
  | none => false
  | some flight =>
    match w.nodes flight.recipient, w.nodes flight.sender with
    | some n, some peer =>
      n.ledger.unacked.any fun entry =>
        entry.tag == .commit && entry.recipient == flight.sender &&
          flight.message.tag == .prepareOk && entry.ballot == flight.message.header.view &&
          decide (entry.slot < flight.message.header.slot) &&
          !peer.took entry.slot
    | _, _ => false

/-- No acknowledgement of a run outruns a commit. -/
def abreast (json : RequestJson) : World → List Event → Bool
  | _, [] => true
  | w, event :: events => !w.outruns event && abreast json (w.step json event) events

/-- **What holds of a world**: every datagram was sent by a node that vouches for it, and the
ledgers hold what was sent. -/
structure Sound (w : World) : Prop where
  named : ∀ own n, w.nodes own = some n → n.own = own
  nodes : ∀ own n, w.nodes own = some n → n.Sound
  vouched : ∀ flight ∈ w.sent, ∃ n, w.nodes flight.sender = some n ∧ n.Vouches flight.message
  relays : ∀ own n, w.nodes own = some n → ∀ entry ∈ n.ledger.unacked,
    ∃ flight ∈ w.sent, flight.sender = own ∧ flight.datagram = entry

variable {w : World} {json : RequestJson} {n n' : DemoNode} {flights : List Flight}

theorem start_sound : start.Sound where
  named := fun _ _ h => by cases h
  nodes := fun _ _ h => by cases h
  vouched := fun _ h => by cases h
  relays := fun _ _ h => by cases h

theorem setNode_own (w : World) (n : DemoNode) (flights : List Flight) :
    (w.setNode n flights).nodes n.own = some n := if_pos rfl

theorem setNode_other {own : Nat} (h : own ≠ n.own) :
    (w.setNode n flights).nodes own = w.nodes own := if_neg h

/-- A node of the new world is the one set or one of the old world. -/
theorem setNode_cases {own : Nat} {m : DemoNode} (h : (w.setNode n flights).nodes own = some m) :
    (own = n.own ∧ m = n) ∨ w.nodes own = some m := by
  by_cases hown : own = n.own
  · rw [hown, setNode_own] at h
    exact .inl ⟨hown, (Option.some.inj h).symm⟩
  · rw [setNode_other hown] at h
    exact .inr h

/-- A node in place of the one it comes from, with what it sent. -/
theorem Sound.setNode (hw : w.Sound) (hsound : n'.Sound)
    (hsenders : ∀ flight ∈ flights, flight.sender = n'.own)
    (hvouches : ∀ flight ∈ flights, n'.Vouches flight.message)
    (hearlier : ∀ message, (∃ n, w.nodes n'.own = some n ∧ n.Vouches message) →
      n'.Vouches message)
    (hledger : ∀ entry ∈ n'.ledger.unacked,
      (∃ flight ∈ flights, flight.datagram = entry) ∨
        ∃ flight ∈ w.sent, flight.sender = n'.own ∧ flight.datagram = entry) :
    (w.setNode n' flights).Sound where
  named := by
    intro own n hn
    rcases setNode_cases hn with ⟨rfl, rfl⟩ | hn
    · rfl
    · exact hw.named own n hn
  nodes := by
    intro own n hn
    rcases setNode_cases hn with ⟨rfl, rfl⟩ | hn
    · exact hsound
    · exact hw.nodes own n hn
  vouched := by
    intro flight hmem
    rcases List.mem_append.mp hmem with hmem | hmem
    · by_cases hown : flight.sender = n'.own
      · rw [hown]
        exact ⟨n', setNode_own w n' flights, hearlier _ (hown ▸ hw.vouched flight hmem)⟩
      · rw [setNode_other hown]
        exact hw.vouched flight hmem
    · rw [hsenders flight hmem]
      exact ⟨n', setNode_own w n' flights, hvouches flight hmem⟩
  relays := by
    intro own n hn entry hentry
    rcases setNode_cases hn with ⟨rfl, rfl⟩ | hn
    · rcases hledger entry hentry with ⟨flight, hmem, heq⟩ | ⟨flight, hmem, hfrom⟩
      · exact ⟨flight, List.mem_append_right _ hmem, hsenders flight hmem, heq⟩
      · exact ⟨flight, List.mem_append_left _ hmem, hfrom⟩
    · obtain ⟨flight, hmem, hfrom⟩ := hw.relays own n hn entry hentry
      exact ⟨flight, List.mem_append_left _ hmem, hfrom⟩

/-! ### Boots -/

/-- A fresh node over a volatile replica. -/
theorem assemble_sound {r : Replica SegmentedLog} (hvolatile : r.stability = .volatile)
    (hunparked : r.parked = none) : (DemoNode.assemble r).Sound where
  volatile := hvolatile
  unparked := hunparked
  planned := fun _ hmem => by cases hmem
  committed := fun _ hmem => by cases hmem

theorem Sound.boot (hw : w.Sound) {m : DemoNode} (hgoes : DemoNode.Goes m n flights)
    (hempty : m.ledger.unacked = []) : (w.boot n flights).Sound := by
  unfold World.boot
  split
  · exact hw
  · rename_i hnone
    refine hw.setNode hgoes.sound (fun flight hmem => ?_) hgoes.vouches ?_ fun entry hentry => ?_
    · rw [hgoes.senders flight hmem, hgoes.own]
    · rintro message ⟨n', hn', -⟩
      rw [hn'] at hnone
      exact absurd rfl hnone
    · rw [hgoes.ledger] at hentry
      rcases Ledger.mem_of_mem_recordAll hentry with hold | hnew
      · rw [hempty] at hold
        cases hold
      · exact .inl (List.mem_map.mp hnew)

theorem first_sound {own : Nat} {genesisOrder : List Nat} {knobs : ViewChangeKnobs}
    (h : DemoNode.first own genesisOrder knobs = some n) :
    n.Sound ∧ n.ledger.unacked = [] := by
  obtain ⟨r, hr, rfl⟩ := Option.map_eq_some_iff.mp h
  obtain ⟨table, journal, progress, -, -, -, -, rfl⟩ := provision_data (toOption_eq_some hr)
  exact ⟨assemble_sound rfl rfl, rfl⟩

theorem reincarnate_goes {old : Nat} {disk : DemoDisk} {word : Option FenceWord}
    {knobs : ViewChangeKnobs} {result : Except DemoRefusal Nat}
    (h : DemoNode.reincarnate json old disk word knobs = some (n, flights, result)) :
    ∃ m : DemoNode, DemoNode.Goes m n flights ∧ m.ledger.unacked = [] := by
  unfold DemoNode.reincarnate at h
  split at h
  · cases h
  obtain ⟨own, -, h⟩ := Option.bind_eq_some_iff.mp h
  obtain ⟨r, hr, h⟩ := Option.bind_eq_some_iff.mp h
  obtain ⟨progress, -, rfl⟩ := reopenFenced_data (toOption_eq_some hr)
  have hsound : (DemoNode.assemble (Replica.assemble own weightedMajority disk.journal .volatile
      knobs progress)).Sound := assemble_sound rfl rfl
  have hgoes := hsound.step json (.reincarnate old)
  rw [show DemoNode.step json _ (.reincarnate old) = (n, flights, result) from Option.some.inj h]
    at hgoes
  exact ⟨_, hgoes, rfl⟩

/-! ### One event -/

/-- **What an event does to the node it names.** -/
structure Moves (w : World) (event : Event) (n n' : DemoNode) (flights : List Flight) : Prop where
  own : n'.own = n.own
  sound : n'.Sound
  senders : ∀ flight ∈ flights, flight.sender = n.own
  vouches : ∀ flight ∈ flights, n'.Vouches flight.message
  later : ∀ message, n.Vouches message → n'.Vouches message
  recorded : ∃ datagrams, n'.released = n.released ++ datagrams ∧
    n'.ledger = (w.heard event n).recordAll datagrams ∧
    ∀ datagram ∈ datagrams, ∃ flight ∈ flights, flight.datagram = datagram

/-- A step taken once the ledger was offered what an event delivers. -/
theorem Moves.of_goes {event : Event} {m : DemoNode} (h : DemoNode.Goes m n' flights)
    (hown : m.own = n.own) (hreplica : m.replica = n.replica) (htrail : m.trail = n.trail)
    (hreleased : m.released = n.released) (hledger : m.ledger = w.heard event n) :
    Moves w event n n' flights where
  own := h.own.trans hown
  sound := h.sound
  senders := hown ▸ h.senders
  vouches := h.vouches
  later := fun _ hvouches => hvouches.later (htrail ▸ h.trail) (hreplica ▸ h.current)
  recorded := ⟨flights.map Flight.datagram, hreleased ▸ h.released, hledger ▸ h.ledger,
    fun _ hmem => List.mem_map.mp hmem⟩

/-- What the ledger holds once it was offered something, it held before. -/
theorem mem_of_mem_heard {event : Event} {entry : Datagram}
    (h : entry ∈ (w.heard event n).unacked) : entry ∈ n.ledger.unacked := by
  unfold heard at h
  split at h
  · exact h
  · split at h
    · exact (Ledger.mem_answered.mp h).1
    · exact h

/-- What leaves a ledger that is offered something, that answers. -/
theorem heard_keeps {event : Event} {entry : Datagram} (h : entry ∈ n.ledger.unacked) :
    entry ∈ (w.heard event n).unacked ∨
      ∃ flight, w.delivered event = some flight ∧ flight.recipient = n.own ∧
        flight.answers entry = true := by
  unfold heard
  split
  · exact .inl h
  · rename_i flight hflight
    split
    · rename_i hrecipient
      by_cases hanswers : flight.answers entry = true
      · exact .inr ⟨flight, hflight, hrecipient, hanswers⟩
      · exact .inl (Ledger.mem_answered.mpr ⟨h, Bool.eq_false_iff.mpr hanswers⟩)
    · exact .inl h

/-- What an event takes from a ledger is answered, repeated or dropped by the bound. -/
theorem Moves.keeps {event : Event} (hmoves : Moves w event n n' flights) {entry : Datagram}
    (hentry : entry ∈ n.ledger.unacked) :
    entry ∈ n'.ledger.unacked ∨
      (∃ flight, w.delivered event = some flight ∧ flight.recipient = n'.own ∧
        flight.answers entry = true) ∨
      ∃ datagrams, n'.released = n.released ++ datagrams ∧
        (w.heard event n).Displaces datagrams entry := by
  obtain ⟨datagrams, hreleased, hledger, -⟩ := hmoves.recorded
  rw [hledger, hmoves.own]
  rcases heard_keeps hentry with hheard | hanswered
  · rcases Ledger.recordAll_keeps hheard with hkept | hdisplaced
    · exact .inl hkept
    · exact .inr (.inr ⟨datagrams, hreleased, hdisplaced⟩)
  · exact .inr (.inl hanswered)

theorem Sound.acts (hw : w.Sound) {event : Event} (h : w.acts json event = some (n', flights)) :
    ∃ own n, w.nodes own = some n ∧ Moves w event n n' flights := by
  have hplain : ∀ {own : Nat} {n m : DemoNode} {out : Stepped Nat},
      w.nodes own = some n → w.delivered event = none → DemoNode.Goes m out.1 out.2.1 →
      m.own = n.own → m.replica = n.replica → m.trail = n.trail → m.released = n.released →
      m.ledger = n.ledger → (out.1, out.2.1) = (n', flights) →
      ∃ own n, w.nodes own = some n ∧ Moves w event n n' flights := by
    intro own n m out hn hnone hgoes hown hreplica htrail hreleased hledger hout
    obtain ⟨rfl, rfl⟩ := Prod.mk.inj hout
    refine ⟨own, n, hn, .of_goes hgoes hown hreplica htrail hreleased ?_⟩
    rw [hledger, heard, hnone]
  cases event with
  | first => cases h
  | reincarnate => cases h
  | input node event =>
    unfold World.acts at h
    simp only at h
    split at h
    · cases h
    · obtain ⟨n, hn, hout⟩ := Option.map_eq_some_iff.mp h
      exact hplain hn rfl ((hw.nodes node n hn).step json event) rfl rfl rfl rfl rfl hout
  | tick node time =>
    obtain ⟨n, hn, hout⟩ := Option.map_eq_some_iff.mp h
    have hs := hw.nodes node n hn
    have hs' : ({ n with tick := max n.tick time } : DemoNode).Sound :=
      ⟨hs.volatile, hs.unparked, hs.planned, hs.committed⟩
    exact hplain hn rfl (hs'.step json .tick) rfl rfl rfl rfl rfl hout
  | gossip node =>
    obtain ⟨n, hn, hout⟩ := Option.map_eq_some_iff.mp h
    obtain ⟨rfl, rfl⟩ := Prod.mk.inj hout
    refine ⟨node, n, hn, rfl, hw.nodes node n hn, fun flight hmem => ?_, fun flight hmem => ?_,
      fun _ => id, [], (List.append_nil _).symm, rfl, fun _ hmem => by cases hmem⟩
    · obtain ⟨member, -, rfl⟩ := List.mem_map.mp hmem
      rfl
    · obtain ⟨member, -, rfl⟩ := List.mem_map.mp hmem
      trivial
  | deliver index =>
    obtain ⟨flight, hflight, h⟩ := Option.bind_eq_some_iff.mp h
    obtain ⟨n, hn, h⟩ := Option.bind_eq_some_iff.mp h
    have hs := hw.nodes _ n hn
    have hs' : ({ n with ledger := n.hears flight.sender flight.message } : DemoNode).Sound :=
      ⟨hs.volatile, hs.unparked, hs.planned, hs.committed⟩
    obtain ⟨rfl, rfl⟩ := Prod.mk.inj (Option.some.inj h)
    refine ⟨flight.recipient, n, hn, .of_goes (hs'.step json (.peer flight.sender flight.message))
      rfl rfl rfl rfl ?_⟩
    have hdelivered : w.delivered (.deliver index) = some flight := hflight
    rw [heard, hdelivered]
    exact (if_pos (hw.named _ n hn).symm).symm

/-- What an event makes of the world: nothing, a boot, or one node moved. -/
inductive Steps (w : World) (event : Event) : World → Prop
  | still : Steps w event w
  | booted (n : DemoNode) (flights : List Flight) (hnone : w.nodes n.own = none)
      (hsound : (w.setNode n flights).Sound) : Steps w event (w.setNode n flights)
  | moved (n n' : DemoNode) (flights : List Flight) (hn : w.nodes n'.own = some n)
      (hmoves : Moves w event n n' flights) : Steps w event (w.setNode n' flights)

theorem Sound.booted (hw : w.Sound) (event : Event) {m : DemoNode}
    (hgoes : DemoNode.Goes m n flights) (hempty : m.ledger.unacked = []) :
    Steps w event (w.boot n flights) := by
  have hsound := hw.boot hgoes hempty
  unfold World.boot at hsound ⊢
  cases hnone : w.nodes n.own with
  | some _ => exact .still
  | none =>
    rw [hnone] at hsound
    exact .booted n flights hnone hsound

theorem Sound.steps (hw : w.Sound) (json : RequestJson) (event : Event) :
    Steps w event (w.step json event) := by
  have hacts : ∀ n' flights, w.acts json event = some (n', flights) →
      Steps w event (w.setNode n' flights) := by
    intro n' flights hacts
    obtain ⟨own, n, hn, hmoves⟩ := hw.acts hacts
    refine .moved n n' flights ?_ hmoves
    rw [hmoves.own, hw.named own n hn]
    exact hn
  cases event with
  | first own genesisOrder knobs =>
    unfold World.step
    simp only
    cases hfirst : DemoNode.first own genesisOrder knobs with
    | none => exact .still
    | some n =>
      obtain ⟨hsound, hempty⟩ := first_sound hfirst
      exact hw.booted _ (.refl hsound) hempty
  | reincarnate old disk word knobs =>
    unfold World.step
    simp only
    cases hreborn : DemoNode.reincarnate json old disk word knobs with
    | none => exact .still
    | some out =>
      obtain ⟨n, flights, result⟩ := out
      obtain ⟨m, hgoes, hempty⟩ := reincarnate_goes hreborn
      exact hw.booted _ hgoes hempty
  | _ =>
    unfold World.step
    simp only
    split
    · exact .still
    · rename_i n' flights hout
      exact hacts n' flights hout

/-- **One event keeps the world sound.** -/
theorem Sound.step (hw : w.Sound) (event : Event) : (w.step json event).Sound := by
  have hsteps := hw.steps json event
  generalize w.step json event = w' at hsteps
  cases hsteps with
  | still => exact hw
  | booted n flights hnone hsound => exact hsound
  | moved n n' flights hn hmoves =>
    refine hw.setNode hmoves.sound (fun flight hmem => ?_) hmoves.vouches ?_ fun entry hentry => ?_
    · rw [hmoves.senders flight hmem, hmoves.own]
    · rintro message ⟨m, hm, hvouches⟩
      rw [hn] at hm
      cases hm
      exact hmoves.later message hvouches
    · obtain ⟨datagrams, -, hledger, hsent⟩ := hmoves.recorded
      rw [hledger] at hentry
      rcases Ledger.mem_of_mem_recordAll hentry with hheard | hnew
      · exact .inr (hw.relays _ n hn entry (mem_of_mem_heard hheard))
      · exact .inl (hsent entry hnew)

/-- **One event retires on evidence**, where it lets no acknowledgement outrun a commit. -/
theorem Sound.evidenced (hw : w.Sound) {event : Event} (hcalm : w.outruns event = false) :
    w.Evidenced json event where
  retired := by
    intro flight n hflight hn entry hentry hanswers
    obtain ⟨hrecipient, hera, hrule⟩ := Ledger.answers_rules.mp hanswers
    have hsent : flight ∈ w.sent := by
      cases event with
      | deliver index => exact List.mem_of_getElem? hflight
      | _ => cases hflight
    obtain ⟨peer, hpeer, hvouches⟩ := hw.vouched flight hsent
    refine ⟨peer, hrecipient ▸ hpeer, (hw.nodes _ peer hpeer).processed hvouches hanswers ?_⟩
    intro hcommit
    by_contra htook
    rw [outruns, hflight] at hcalm
    simp only [hn, hpeer] at hcalm
    refine absurd hcalm ?_
    rw [Bool.not_eq_false, List.any_eq_true]
    refine ⟨entry, hentry, ?_⟩
    rw [hcommit] at hrule
    obtain hother | ⟨-, hresponse, hview, hslot⟩ | hother | hother := hrule
    · cases hother.1
    · have hballot : entry.ballot = flight.message.header.view := Ballot.ext hera hview.symm
      simp [hcommit, hrecipient, hresponse, hballot, hslot, htook]
    · cases hother.1
    · cases hother.1
  kept := by
    intro own n n' hn hn' entry hentry
    have hsteps := hw.steps json event
    generalize w.step json event = w' at hsteps hn'
    have hsame : w.nodes own = some n' → entry ∈ n'.ledger.unacked := by
      intro hsame
      rw [hn] at hsame
      exact Option.some.inj hsame ▸ hentry
    cases hsteps with
    | still => exact .inl (hsame hn')
    | booted m flights hnone =>
      rcases setNode_cases hn' with ⟨hown, -⟩ | hn'
      · rw [hown, hnone] at hn
        cases hn
      · exact .inl (hsame hn')
    | moved m m' flights hm hmoves =>
      rcases setNode_cases hn' with ⟨rfl, rfl⟩ | hn'
      · rw [hm] at hn
        cases hn
        exact hmoves.keeps hentry
      · exact .inl (hsame hn')

theorem Sound.run (hw : w.Sound) (events : List Event) : (w.run json events).Sound := by
  induction events generalizing w with
  | nil => exact hw
  | cons event events ih => exact ih (hw.step event)

/-- **The ledger mints nothing**: what a node relays it sent before, so that a relay is one more
delivery of it. -/
theorem relay_sent (json : RequestJson) (events : List Event) {own : Nat}
    (hn : (start.run json events).nodes own = some n) {era view : Nat} {datagram : Datagram}
    (hmem : datagram ∈ n.ledger.relay era view) :
    ∃ flight ∈ (start.run json events).sent, flight.sender = own ∧ flight.datagram = datagram :=
  (start_sound.run events).relays own n hn datagram (List.mem_of_mem_filter hmem)

theorem Sound.along (hw : w.Sound) {events : List Event} (h : w.abreast json events = true) :
    w.Along json (Evidenced json) events := by
  induction events generalizing w with
  | nil => trivial
  | cons event events ih =>
    simp only [abreast, Bool.and_eq_true, Bool.not_eq_true'] at h
    exact ⟨hw.evidenced h.1, ih (hw.step event) h.2⟩

/-- **Where no acknowledgement outruns a commit, the ledgers let go on evidence only**, in every
state of the run. -/
theorem evidenced_of_abreast (json : RequestJson) (events : List Event)
    (h : start.abreast json events = true) : start.Along json (Evidenced json) events :=
  start_sound.along h

/-! ### A commit retired unheard -/

theorem along_append {P : World → Event → Prop} {events later : List Event} :
    w.Along json P (events ++ later) ↔
      w.Along json P events ∧ (w.run json events).Along json P later := by
  induction events generalizing w with
  | nil => simp [Along, run]
  | cons event events ih =>
    rw [List.cons_append, Along, Along, ih, and_assoc]
    rfl

/-- A text as bytes. -/
def ascii (text : String) : List UInt8 := text.toList.map fun letter => UInt8.ofNat letter.toNat

/-- A read of the first lock, as the library writes it. -/
def getRequest : List UInt8 := ascii "\x7b\"op\":\"get\",\"lock_id\":1\x7d"

/-- The library on that request and its answers. -/
def getJson : RequestJson where
  fromSlice bytes := if bytes = getRequest then some (.get 1) else none
  toVec response :=
    match response with
    | .get lockId none executedAt =>
      ascii ("\x7b\"op\":\"get\",\"lock_id\":" ++ toString lockId ++
        ",\"lease\":null,\"executed_at\":" ++ toString executedAt ++ "\x7d")
    | _ => []

def fourNodes : List Nat := [65537, 131073, 196609, 262145]

def read (number : Nat) : Input :=
  .propose { id := { msb := 0, lsb := number }, payload := getRequest }

/-- Four nodes come up, and the first one leads. -/
def led : List Event :=
  (fourNodes.map fun own =>
    .first own fourNodes { primaryTimeout := 25, viewChangeBudget := 65536 }) ++
    [.tick 65537 1, .deliver 0, .deliver 1, .deliver 2]

/-- One read is committed and the commit delivered, before the second node acknowledges another. -/
def told : List Event :=
  led ++ [.input 65537 (read 1), .deliver 3, .deliver 4, .deliver 6, .deliver 7, .deliver 8,
    .input 65537 (read 2), .deliver 11, .deliver 14]

/-- The second node takes the commit of the first read and then acknowledges the second one, which
retires the commit. -/
theorem evidenced_of_abreast_told :
    start.abreast getJson told = true ∧ start.Along getJson (Evidenced getJson) told :=
  ⟨by decide +kernel, evidenced_of_abreast getJson told (by decide +kernel)⟩

/-- Two reads are proposed and both reach the second node. The acknowledgements of the first commit
it, and the commit is released while the acknowledgement of the second is under way. -/
def pipelined : List Event :=
  led ++ [.input 65537 (read 1), .input 65537 (read 2), .deliver 3, .deliver 4, .deliver 6,
    .deliver 9, .deliver 10]

/-- The acknowledgement of the second read. -/
def laterOk : Flight where
  sender := 131073
  recipient := 65537
  era := 1
  message := { header := { view := { era := 1, view := 0 }, slot := 4 }, body := .prepareOk }

/-- The commit of the first read. -/
def firstCommit : Datagram :=
  Datagram.of 131073 { header := { view := { era := 1, view := 0 }, slot := 3 }, body := .commit 3 }

/-- **A commit is retired that its addressee has not heard of**: the second node holds the read and
has not committed it. -/
theorem commit_retired_unheard : ¬ ∀ (json : RequestJson) (events : List Event),
    start.Along json (Evidenced json) events := by
  intro hall
  obtain ⟨-, hlast, -⟩ := along_append.mp (hall getJson (pipelined ++ [.deliver 11]))
  have hdelivered : (start.run getJson pipelined).delivered (.deliver 11) = some laterOk := by
    decide +kernel
  have hledger : ((start.run getJson pipelined).nodes 65537).map
      (fun n => n.ledger.unacked.contains firstCommit) = some true := by decide +kernel
  have hbehind : ((start.run getJson pipelined).nodes 131073).map
      (fun n => (n.replica.progress.committed, n.replica.progress.accepted)) = some (2, 4) := by
    decide +kernel
  obtain ⟨n, hn, hstands⟩ := Option.map_eq_some_iff.mp hledger
  obtain ⟨peer, hpeer, hprocessed⟩ := hlast.retired laterOk n hdelivered hn firstCommit
    (List.contains_iff_mem.mp hstands) rfl
  obtain ⟨peer', hpeer', hfrontiers⟩ := Option.map_eq_some_iff.mp hbehind
  rw [show (start.run getJson pipelined).nodes firstCommit.recipient = some peer' from hpeer']
    at hpeer
  cases hpeer
  obtain ⟨hcommitted, haccepted⟩ := Prod.mk.inj hfrontiers
  have hclaimed : 3 ≤ peer.replica.progress.committed ∨ peer.replica.progress.accepted < 3 :=
    hprocessed
  omega

end World

end Demo

end UvrrCore
