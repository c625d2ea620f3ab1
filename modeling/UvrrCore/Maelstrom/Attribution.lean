import UvrrCore.Message
import UvrrCore.OrdMap
import Mathlib.Data.String.Basic

/-!
# The host's transport attribution

A host of the bench names its peers by transport strings and the core by identities. `Identity`
holds what the host last learned for each string: the genesis identity of the seat, until an
announcement of a new life, sent from that seat, moves it.

Every announcement that speaks for its sender's seat is taken, in the order of arrival. So the
attribution goes back exactly where an announcement of an earlier life arrives behind that of a
later one.

## Main results

* `attributed_hear`: the identity attributed is that of the last announcement heard.
* `neverBack_iff`: when the attribution never goes back.
-/

namespace UvrrCore

namespace Maelstrom

/-- The crash counter of an identity: its low half. -/
def lifeOf (node : Nat) : Nat := node % u16Bound

/-- The roster of a host. One that does not fit the system half of an identity never boots. -/
structure Roster where
  members : List String
  fits : members.length < u16Bound

/-- The identity map of a host. -/
structure Identity where
  roster : Roster
  current : OrdMap String Nat

namespace Identity

/-- The identity of a seat's first life. -/
def genesis (index : Nat) : Nat := NodeId.new (index + 1) 1

/-- The map at init. -/
def start (roster : Roster) : Identity where
  roster := roster
  current := OrdMap.empty

/-- The transport string of an identity: that of the seat its system half names. -/
def stringOf (identity : Identity) (node : Nat) : Option String :=
  match NodeId.systemId node with
  | none => none
  | some system => identity.roster.members[system - 1]?

/-- The identity traffic of a transport string is attributed to. -/
def attributed (identity : Identity) (src : String) : Option Nat :=
  (identity.current.get? src).or
    ((identity.roster.members.findIdx? fun member => member == src).map genesis)

/-- An announcement taken, if its old identity names the sender's own seat. -/
def remap (identity : Identity) (src : String) (old new : Nat) : Identity × Bool :=
  if identity.stringOf old = some src then
    ({ identity with current := identity.current.insert src new }, true)
  else (identity, false)

end Identity

/-- A line of a peer: the transport string it comes from, and its message where it decodes. -/
structure PeerLine where
  src : String
  decoded : Option Message

namespace Identity

/-- **One peer line**: the map behind it, and what the core is fed. -/
def onPeer (identity : Identity) (line : PeerLine) : Identity × Option (Nat × Message) :=
  match line.decoded with
  | none => (identity, none)
  | some message =>
    let unmoved := (identity, (identity.attributed line.src).map fun sender => (sender, message))
    match message.body with
    | .reincarnation old new _ _ =>
      let remapped := identity.remap line.src old new
      if remapped.2 then (remapped.1, some (new, message)) else unmoved
    | _ => unmoved

/-- The map behind a sequence of lines. -/
def hear (identity : Identity) (lines : List PeerLine) : Identity :=
  lines.foldl (fun identity line => (identity.onPeer line).1) identity

/-- The identity a line announces for a transport string, where it speaks for the string's seat. -/
def announced (identity : Identity) (src : String) (line : PeerLine) : Option Nat :=
  match line.decoded with
  | none => none
  | some message =>
    match message.body with
    | .reincarnation old new _ _ =>
      if line.src = src ∧ identity.stringOf old = some src then some new else none
    | _ => none

/-! ### What a line does -/

theorem attributed_insert (identity : Identity) (src other : String) (node : Nat) :
    ({ identity with current := identity.current.insert src node } : Identity).attributed other =
      if other = src then some node else identity.attributed other := by
  unfold attributed
  rw [OrdMap.get?_insert]
  split
  · rfl
  · rfl

theorem announced_src {identity : Identity} {src : String} {line : PeerLine} {node : Nat}
    (h : identity.announced src line = some node) : line.src = src := by
  unfold announced at h
  split at h
  · cases h
  · split at h
    · split at h
      · rename_i hspeaks
        exact hspeaks.1
      · cases h
    · cases h

/-- **What a line does.** It moves its sender to the identity it announces, or changes nothing and
is fed as the sender's. -/
theorem onPeer_cases (identity : Identity) (line : PeerLine) :
    (∃ new message, identity.announced line.src line = some new ∧
      identity.onPeer line = ({ identity with
        current := identity.current.insert line.src new }, some (new, message))) ∨
    ((∀ src, identity.announced src line = none) ∧ (identity.onPeer line).1 = identity ∧
      ∀ sender message, (identity.onPeer line).2 = some (sender, message) →
        identity.attributed line.src = some sender) := by
  have hunmoved : ∀ message : Message, ∀ sender fed,
      (identity.attributed line.src).map (fun sender => (sender, message)) = some (sender, fed) →
        identity.attributed line.src = some sender := by
    intro message sender fed hfed
    obtain ⟨_, hattributed, heq⟩ := Option.map_eq_some_iff.mp hfed
    rw [hattributed, (Prod.mk.inj heq).1]
  unfold onPeer announced
  cases line.decoded with
  | none => exact .inr ⟨fun _ => rfl, rfl, fun _ _ h => (nomatch h)⟩
  | some message =>
    simp only
    cases hbody : message.body with
    | reincarnation old new committed prepared =>
      simp only
      by_cases hspeaks : identity.stringOf old = some line.src
      · refine .inl ⟨new, message, by simp [hspeaks], ?_⟩
        rw [remap, if_pos hspeaks]
        rfl
      · have hnone : ∀ src, ¬(line.src = src ∧ identity.stringOf old = some src) := by
          rintro src ⟨rfl, hold⟩
          exact hspeaks hold
        refine .inr ⟨fun src => if_neg (hnone src), ?_, ?_⟩
        · rw [remap, if_neg hspeaks]
          rfl
        · rw [remap, if_neg hspeaks]
          exact hunmoved message
    | _ => exact .inr ⟨fun _ => rfl, rfl, hunmoved message⟩

/-- A line keeps the roster, and so what later lines announce. -/
theorem announced_onPeer (identity : Identity) (line other : PeerLine) (src : String) :
    (identity.onPeer line).1.announced src other = identity.announced src other := by
  rcases onPeer_cases identity line with ⟨new, message, -, hmoved⟩ | ⟨-, hkept, -⟩
  · rw [hmoved]
    rfl
  · rw [hkept]

/-- **A line moves a string exactly to what it announces for it.** -/
theorem attributed_onPeer (identity : Identity) (line : PeerLine) (src : String) :
    (identity.onPeer line).1.attributed src =
      (identity.announced src line).or (identity.attributed src) := by
  rcases onPeer_cases identity line with ⟨new, message, hannounced, hmoved⟩ | ⟨hnone, hkept, -⟩
  · rw [hmoved, attributed_insert]
    by_cases hsrc : src = line.src
    · rw [if_pos hsrc, hsrc, hannounced]
      rfl
    · rw [if_neg hsrc]
      cases hother : identity.announced src line with
      | none => rfl
      | some node => exact absurd (announced_src hother).symm hsrc
  · rw [hkept, hnone src]
    rfl

/-- A line is fed to the core as coming from the identity its sender has behind it. -/
theorem fed_onPeer {identity : Identity} {line : PeerLine} {sender : Nat} {message : Message}
    (h : (identity.onPeer line).2 = some (sender, message)) :
    (identity.onPeer line).1.attributed line.src = some sender := by
  rcases onPeer_cases identity line with ⟨new, fed, hannounced, hmoved⟩ | ⟨hnone, hkept, hfed⟩
  · rw [attributed_onPeer, hannounced]
    rw [hmoved] at h
    rw [(Prod.mk.inj (Option.some.inj h)).1]
    rfl
  · rw [hkept]
    exact hfed sender message h

/-- The core is fed the message of the line. -/
theorem onPeer_message {identity : Identity} {src : String} {message fed : Message} {sender : Nat}
    (h : (identity.onPeer { src := src, decoded := some message }).2 = some (sender, fed)) :
    fed = message := by
  unfold onPeer at h
  have hunmoved : (identity.attributed src).map (fun sender => (sender, message)) =
      some (sender, fed) → fed = message := by
    intro hmap
    obtain ⟨_, -, heq⟩ := Option.map_eq_some_iff.mp hmap
    exact (Prod.mk.inj heq).2.symm
  simp only at h
  split at h
  · split at h
    · cases h
      rfl
    · exact hunmoved h
  · exact hunmoved h

/-! ### Sequences of lines -/

/-- The identities announced for a string, in the order heard. -/
def announcements (identity : Identity) (src : String) (lines : List PeerLine) : List Nat :=
  lines.filterMap (identity.announced src)

theorem hear_append (identity : Identity) (first second : List PeerLine) :
    identity.hear (first ++ second) = (identity.hear first).hear second := List.foldl_append

theorem announcements_append (identity : Identity) (src : String) (first second : List PeerLine) :
    identity.announcements src (first ++ second) =
      identity.announcements src first ++ identity.announcements src second :=
  List.filterMap_append

/-- **The identity attributed is that of the last announcement heard**, or as it was. -/
theorem attributed_hear (identity : Identity) (lines : List PeerLine) (src : String) :
    (identity.hear lines).attributed src =
      ((identity.announcements src lines).getLast?).or (identity.attributed src) := by
  induction lines generalizing identity with
  | nil => rfl
  | cons line lines ih =>
    have hsame : (identity.onPeer line).1.announcements src lines =
        identity.announcements src lines := by
      unfold announcements
      congr 1
      funext other
      exact announced_onPeer identity line other src
    show ((identity.onPeer line).1.hear lines).attributed src = _
    rw [ih, hsame, attributed_onPeer]
    unfold announcements
    cases hannounced : identity.announced src line with
    | none =>
      rw [List.filterMap_cons_none hannounced]
      rfl
    | some node =>
      rw [List.filterMap_cons_some hannounced, List.getLast?_cons]
      cases (lines.filterMap (identity.announced src)).getLast? with
      | none => rfl
      | some last => rfl

/-- The lives a string goes through: the genesis one and those announced. -/
def lives (identity : Identity) (src : String) (lines : List PeerLine) : List Nat :=
  1 :: (identity.announcements src lines).map lifeOf

theorem lifeOf_genesis (index : Nat) : lifeOf (genesis index) = 1 := by
  unfold lifeOf genesis NodeId.new
  rw [Nat.mul_comm, Nat.mul_add_mod]
  rfl

theorem lifeOf_start {roster : Roster} {src : String}
    {node : Nat} (h : (start roster).attributed src = some node) : lifeOf node = 1 := by
  have hseat : (roster.members.findIdx? fun member => member == src).map genesis = some node := h
  obtain ⟨index, -, rfl⟩ := Option.map_eq_some_iff.mp hseat
  exact lifeOf_genesis index

/-- The life attributed is the last one heard of. -/
theorem lifeOf_attributed {roster : Roster}
    {lines : List PeerLine} {src : String} {node : Nat}
    (h : ((start roster).hear lines).attributed src = some node) :
    ((start roster).lives src lines).getLast? = some (lifeOf node) := by
  rw [attributed_hear] at h
  unfold lives
  rw [List.getLast?_cons, List.getLast?_map]
  cases hlast : ((start roster).announcements src lines).getLast? with
  | none =>
    rw [hlast] at h
    rw [lifeOf_start h]
    rfl
  | some last =>
    rw [hlast] at h
    rw [Option.some.inj h]
    rfl

/-- A string an announcement speaks for is a seat of the roster, so it is always attributed. -/
theorem attributed_of_announced {roster : Roster}
    {src : String} {line : PeerLine} {new : Nat}
    (h : (start roster).announced src line = some new) (lines : List PeerLine) :
    ∃ node, ((start roster).hear lines).attributed src = some node := by
  have hseat : src ∈ roster.members := by
    unfold announced at h
    split at h
    · cases h
    · split at h
      · split at h
        · rename_i hspeaks
          have hstring := hspeaks.2
          unfold stringOf at hstring
          split at hstring
          · cases hstring
          · exact List.mem_of_getElem? hstring
        · cases h
      · cases h
  have hgenesis : ∃ node, (start roster).attributed src = some node := by
    have hfind : (roster.members.findIdx? fun member => member == src).isSome := by
      rw [List.findIdx?_isSome, List.any_eq_true]
      exact ⟨src, hseat, beq_self_eq_true src⟩
    obtain ⟨index, hindex⟩ := Option.isSome_iff_exists.mp hfind
    exact ⟨genesis index, by
      show (roster.members.findIdx? fun member => member == src).map genesis = _
      rw [hindex]
      rfl⟩
  obtain ⟨node, hnode⟩ := hgenesis
  rw [attributed_hear, hnode]
  cases ((start roster).announcements src lines).getLast? with
  | none => exact ⟨node, rfl⟩
  | some last => exact ⟨last, rfl⟩

/-- The last element of an ascending list bounds the others. -/
theorem le_getLast {xs : List Nat} (h : xs.Pairwise (· ≤ ·)) {last : Nat}
    (hlast : xs.getLast? = some last) {x : Nat} (hmem : x ∈ xs) : x ≤ last := by
  obtain ⟨before, rfl⟩ := List.getLast?_eq_some_iff.mp hlast
  rw [List.pairwise_append] at h
  rcases List.mem_append.mp hmem with hmem | hmem
  · exact h.2.2 x hmem last (List.mem_singleton.mpr rfl)
  · exact (List.mem_singleton.mp hmem).le

/-- **The attribution never goes back**: no later attribution of a string has a smaller crash
counter, and no later line is fed to the core under one. -/
structure NeverBack (identity : Identity) (lines : List PeerLine) : Prop where
  attribution : ∀ before between after, lines = before ++ between ++ after →
    ∀ src earlier later, (identity.hear before).attributed src = some earlier →
      (identity.hear (before ++ between)).attributed src = some later →
      lifeOf earlier ≤ lifeOf later
  fed : ∀ before line between line' after, lines = before ++ line :: between ++ line' :: after →
    line.src = line'.src → ∀ sender sender' message message',
      ((identity.hear before).onPeer line).2 = some (sender, message) →
      ((identity.hear (before ++ line :: between)).onPeer line').2 = some (sender', message') →
      lifeOf sender ≤ lifeOf sender'

theorem lives_append (identity : Identity) (src : String) (first second : List PeerLine) :
    identity.lives src (first ++ second) =
      identity.lives src first ++ (identity.announcements src second).map lifeOf := by
  unfold lives
  rw [announcements_append, List.map_append, List.cons_append]

/-- Where the attribution never goes back, each announcement is of a life no earlier than those
heard of before. -/
theorem lives_pairwise_of_neverBack {roster : Roster}
    {lines : List PeerLine} (h : (start roster).NeverBack lines) (src : String)
    {before after : List PeerLine} (hsplit : lines = before ++ after) :
    ((start roster).lives src before).Pairwise (· ≤ ·) := by
  induction before using List.reverseRecOn generalizing after with
  | nil => exact List.pairwise_singleton _ _
  | append_singleton before line ih =>
    rw [List.append_assoc] at hsplit
    have hbefore := ih hsplit
    rw [lives_append]
    cases hannounced : (start roster).announced src line with
    | none =>
      rw [show (start roster).announcements src [line] = [] from
        List.filterMap_cons_none hannounced, List.map_nil, List.append_nil]
      exact hbefore
    | some new =>
      have hone : (start roster).announcements src [line] = [new] :=
        List.filterMap_cons_some hannounced
      rw [hone]
      refine List.pairwise_append.mpr ⟨hbefore, List.pairwise_singleton _ _,
        fun life hmem last hlast => ?_⟩
      rw [List.map_singleton, List.mem_singleton] at hlast
      obtain ⟨earlier, hearlier⟩ := attributed_of_announced hannounced before
      have hlater : ((start roster).hear (before ++ [line])).attributed src = some new := by
        rw [attributed_hear, announcements_append, hone, List.getLast?_concat]
        rfl
      have hle := h.attribution before [line] after (by rw [hsplit, List.append_assoc]) src
        earlier new hearlier hlater
      rw [hlast]
      exact (le_getLast hbefore (lifeOf_attributed hearlier) hmem).trans hle

/-- **When the attribution of a host never goes back**, over every sequence of lines: of each
transport string, the announcements that speak for its seat are heard in the order of the lives. -/
theorem neverBack_iff (roster : Roster) (lines : List PeerLine) :
    (start roster).NeverBack lines ↔
      ∀ src, ((start roster).lives src lines).Pairwise (· ≤ ·) := by
  constructor
  · intro h src
    exact lives_pairwise_of_neverBack h src (List.append_nil lines).symm
  · intro h
    have hattribution : ∀ before between after, lines = before ++ between ++ after →
        ∀ src earlier later, ((start roster).hear before).attributed src = some earlier →
          ((start roster).hear (before ++ between)).attributed src = some later →
          lifeOf earlier ≤ lifeOf later := by
      intro before between after hsplit src earlier later hearlier hlater
      have hordered := h src
      rw [hsplit, lives_append, List.pairwise_append] at hordered
      refine le_getLast hordered.1 (lifeOf_attributed hlater) ?_
      rw [lives_append]
      exact List.mem_append_left _ (List.mem_of_getLast? (lifeOf_attributed hearlier))
    refine ⟨hattribution, ?_⟩
    intro before line between line' after hsplit hsrc sender sender' message message' hfed hfed'
    have hfirst := fed_onPeer hfed
    have hsecond := fed_onPeer hfed'
    rw [← hsrc] at hsecond
    refine hattribution (before ++ [line]) (between ++ [line']) after (by rw [hsplit]; simp)
      line.src sender sender' ?_ ?_
    · rw [hear_append]
      exact hfirst
    · rw [show before ++ [line] ++ (between ++ [line']) =
        (before ++ line :: between) ++ [line'] by simp, hear_append]
      exact hsecond

/-- A line some life of a node sends: an announcement comes from the node's own seat and names the
life before the announced one. -/
def SentByALife (identity : Identity) (line : PeerLine) : Prop :=
  ∀ message, line.decoded = some message → ∀ old new committed prepared,
    message.body = .reincarnation old new committed prepared →
    identity.stringOf old = some line.src ∧ NodeId.nextLife old = some new

/-- Two seats. -/
def pair : Roster where
  members := ["n0", "n1"]
  fits := by decide

/-- The announcement of a life of the second seat. -/
def announcement (life : Nat) : PeerLine where
  src := "n1"
  decoded := some
    { header := { view := { era := 1, view := 0 }, slot := 0 }
      body := .reincarnation (NodeId.new 2 life) (NodeId.new 2 (life + 1)) 2 2 }

/-- The announcement of the second life arrives behind that of the third: the seat is attributed
to the second life again. -/
theorem second_life_again :
    (∀ line ∈ [announcement 2, announcement 1],
      (start pair).SentByALife line) ∧
    ((start pair).hear [announcement 2]).attributed "n1" =
      some (NodeId.new 2 3) ∧
    ((start pair).hear [announcement 2, announcement 1]).attributed "n1" =
      some (NodeId.new 2 2) := by
  refine ⟨fun line hmem message hdecoded old new committed prepared hbody => ?_, by decide,
    by decide⟩
  rcases List.mem_cons.mp hmem with rfl | hmem
  · cases hdecoded
    cases hbody
    decide
  · rw [List.mem_singleton.mp hmem] at hdecoded ⊢
    cases hdecoded
    cases hbody
    decide

end Identity

end Maelstrom

end UvrrCore
