import UvrrCore.Ids

/-!
# The membership store

The data file keeps the cluster membership as a checkpoint block and a ring of eight log slots.
An operation is applied in memory and appended to the log; a checkpoint writes the whole state to
the block and starts the log over at slot 0. A load decodes the block and replays the slots that
continue it.

* `State` carries its invariant: no two members of one identity, no more of them than the block
  holds, every weight at least 1 and in `u16`.
* The checksums of the source are parameters (`Digests`): a slot is valid when it holds the
  checksum of its own fields, and a torn write is any slot that is not.
* `Zones.Holds` says of the zones what a load reads out of them: a prefix of the slots that
  continues the block, and behind it slots that are invalid or too old.
-/

namespace UvrrCore.Zig

/-- The members the checkpoint block has room for. -/
abbrev membersCapacity : Nat := 12

abbrev walSlotCount : Nat := 8

/-- The voting-weight moves. -/
inductive Op where
  | addOne
  | removeOne
  | double
  | halve
deriving DecidableEq, Repr

abbrev Weight := Fin u16Bound

structure Member where
  identity : Nat
  weight : Weight
  learner : Bool
deriving DecidableEq, Repr

@[ext]
structure State where
  members : List Member
  distinct : (members.map Member.identity).Nodup
  fits : members.length ≤ membersCapacity
  weighted : ∀ m ∈ members, 1 ≤ m.weight.val

/-- One call of the store. -/
structure Request where
  op : Op
  identity : Nat
  weight : Weight
  learner : Bool
deriving DecidableEq, Repr

inductive ApplyError where
  | membersFull
  | unknownMember
  | weightOverflow
deriving DecidableEq, Repr

/-- What `apply` comes to. It works on the state in place, so that an error leaves one too. -/
inductive Applied where
  | ok (state : State)
  | error (state : State) (error : ApplyError)
  | overflow

namespace State

def empty : State := ⟨[], List.nodup_nil, Nat.zero_le _, by simp⟩

def find (s : State) (identity : Nat) : Option Member :=
  s.members.find? (·.identity == identity)

/-- The member of an identity, there is one at most, with another weight and flag. -/
def rewrite (s : State) (identity : Nat) (weight : Weight) (learner : Member → Bool)
    (h : 1 ≤ weight.val) : State where
  members := s.members.map fun m =>
    if m.identity = identity then { m with weight := weight, learner := learner m } else m
  distinct := by
    have hsame : ∀ m : Member, Member.identity (if m.identity = identity then
        { m with weight := weight, learner := learner m } else m) = m.identity := by
      intro m
      split <;> rfl
    rw [List.map_map, Function.comp_def]
    simp only [hsame]
    exact s.distinct
  fits := by
    rw [List.length_map]
    exact s.fits
  weighted := by
    intro m hmem
    obtain ⟨old, hold, rfl⟩ := List.mem_map.mp hmem
    split
    · exact h
    · exact s.weighted old hold

theorem not_mem_of_find {s : State} {identity : Nat} (h : s.find identity = none) :
    identity ∉ s.members.map Member.identity := by
  intro hmem
  obtain ⟨m, hm, hid⟩ := List.mem_map.mp hmem
  exact absurd (beq_iff_eq.mpr hid) (List.find?_eq_none.mp h m hm)

def upsert (s : State) (m : Member) (h : 1 ≤ m.weight.val) : Applied :=
  match hfind : s.find m.identity with
  | some _ => .ok (s.rewrite m.identity m.weight (fun _ => m.learner) h)
  | none =>
    if hfull : s.members.length = membersCapacity then .error s .membersFull
    else
      .ok
        { members := s.members ++ [m]
          distinct := by
            rw [List.map_append, List.map_singleton, List.nodup_append]
            refine ⟨s.distinct, List.nodup_singleton _, fun a ha b hb heq => ?_⟩
            exact not_mem_of_find hfind (List.mem_singleton.mp hb ▸ heq ▸ ha)
          fits := by
            have hfits := s.fits
            rw [List.length_append, List.length_singleton]
            omega
          weighted := by
            intro other hmem
            rcases List.mem_append.mp hmem with hmem | hmem
            · exact s.weighted other hmem
            · rw [List.mem_singleton.mp hmem]
              exact h }

/-- The last member takes the place of the one that goes. -/
def remove (s : State) (identity : Nat) : Applied :=
  match hlast : s.members.getLast? with
  | none => .error s .unknownMember
  | some last =>
    if s.members.findIdx (·.identity == identity) = s.members.length then .error s .unknownMember
    else
      have hsplit : s.members = s.members.dropLast ++ [last] :=
        (List.dropLast_append_getLast? last hlast).symm
      .ok
        { members := s.members.dropLast.set (s.members.findIdx (·.identity == identity)) last
          distinct := by
            have hdistinct := s.distinct
            rw [hsplit, List.map_append, List.map_singleton] at hdistinct
            obtain ⟨hfront, -, hnew⟩ := List.nodup_append.mp hdistinct
            rw [List.map_set]
            exact hfront.set fun hmem => hnew _ hmem _ (List.mem_singleton.mpr rfl) rfl
          fits := by
            rw [List.length_set, List.length_dropLast]
            exact Nat.le_trans (Nat.sub_le _ _) s.fits
          weighted := by
            intro m hmem
            rcases List.mem_or_eq_of_mem_set hmem with hmem | rfl
            · exact s.weighted m (List.dropLast_subset _ hmem)
            · exact s.weighted _ (List.mem_of_getLast? hlast) }

theorem find_weighted {s : State} {identity : Nat} {m : Member} (h : s.find identity = some m) :
    1 ≤ m.weight.val := s.weighted m (List.mem_of_find?_eq_some h)

/-- A weight of a request, which is 1 at least. -/
def atLeastOne (weight : Weight) : Weight := if weight.val = 0 then 1 else weight

theorem one_le_atLeastOne (weight : Weight) : 1 ≤ (atLeastOne weight).val := by
  unfold atLeastOne
  split
  · exact Nat.le_refl _
  · exact Nat.pos_of_ne_zero ‹_›

/-- The new weight is written before anything looks whether it is too much, and the product
overflows from a weight of 2^15 on. -/
def double (s : State) (identity : Nat) : Applied :=
  match hfind : s.find identity with
  | none => .error s .unknownMember
  | some m =>
    if hdouble : m.weight.val * 2 < u16Bound then
      have hlawful : 1 ≤ m.weight.val * 2 :=
        Nat.le_trans (find_weighted hfind) (Nat.le_mul_of_pos_right _ (by decide))
      if 32767 < m.weight.val * 2 then
        .error (s.rewrite identity ⟨m.weight.val * 2, hdouble⟩ Member.learner hlawful) .weightOverflow
      else .ok (s.rewrite identity ⟨m.weight.val * 2, hdouble⟩ Member.learner hlawful)
    else .overflow

/-- Half the weight, 1 at least. -/
def halve (s : State) (identity : Nat) : Applied :=
  match s.find identity with
  | none => .error s .unknownMember
  | some m =>
    .ok (s.rewrite identity (atLeastOne ⟨m.weight.val / 2, Nat.lt_of_le_of_lt (Nat.div_le_self _ _)
      m.weight.isLt⟩) Member.learner (one_le_atLeastOne _))

def apply (s : State) (r : Request) : Applied :=
  match r.op with
  | .addOne => s.upsert ⟨r.identity, atLeastOne r.weight, r.learner⟩ (one_le_atLeastOne _)
  | .removeOne => s.remove r.identity
  | .double => s.double r.identity
  | .halve => s.halve r.identity

/-- A doubling of a member that is too heavy for it. -/
def Heavy (s : State) (r : Request) : Prop :=
  r.op = .double ∧ ∃ m ∈ s.members, m.identity = r.identity ∧ 16383 < m.weight.val

theorem mem_of_find {s : State} {identity : Nat} {m : Member} (h : s.find identity = some m) :
    m ∈ s.members ∧ m.identity = identity := by
  have hid := List.find?_some h
  exact ⟨List.mem_of_find?_eq_some h, beq_iff_eq.mp hid⟩

theorem double_of_light {s : State} {identity : Nat}
    (h : ∀ m ∈ s.members, m.identity = identity → m.weight.val ≤ 16383) :
    (∃ s', s.double identity = .ok s') ∨ ∃ e, s.double identity = .error s e := by
  unfold double
  split
  · exact Or.inr ⟨_, rfl⟩
  · rename_i m hfind
    obtain ⟨hmem, hid⟩ := mem_of_find hfind
    have hlight := h m hmem hid
    have hdouble : m.weight.val * 2 < u16Bound :=
      Nat.lt_of_le_of_lt (Nat.mul_le_mul_right 2 hlight) (by decide)
    rw [dif_pos hdouble, if_neg (by omega)]
    exact Or.inl ⟨_, rfl⟩

theorem double_of_excess {s : State} {identity : Nat} {m : Member}
    (hfind : s.find identity = some m) (hexcess : 32767 < m.weight.val * 2)
    (hdouble : m.weight.val * 2 < u16Bound) :
    s.double identity = .error (s.rewrite identity ⟨m.weight.val * 2, hdouble⟩ Member.learner
      (Nat.lt_of_le_of_lt (Nat.zero_le _) hexcess)) .weightOverflow := by
  unfold double
  split
  · rename_i hnone
    cases hfind.symm.trans hnone
  · rename_i other hother
    cases hfind.symm.trans hother
    rw [dif_pos hdouble, if_pos hexcess]

theorem double_of_overflow {s : State} {identity : Nat} {m : Member}
    (hfind : s.find identity = some m) (hdouble : u16Bound ≤ m.weight.val * 2) :
    s.double identity = .overflow := by
  unfold double
  split
  · rename_i hnone
    cases hfind.symm.trans hnone
  · rename_i other hother
    cases hfind.symm.trans hother
    exact dif_neg (Nat.not_lt.mpr hdouble)

theorem find_of_mem {s : State} {m : Member} (h : m ∈ s.members) : s.find m.identity = some m := by
  cases hfind : s.find m.identity with
  | none => exact absurd (List.mem_map_of_mem h) (not_mem_of_find hfind)
  | some other =>
    obtain ⟨hother, hid⟩ := mem_of_find hfind
    rw [List.inj_on_of_nodup_map s.distinct hother h hid]

/-- A member that is too heavy is doubled all the same, or the product overflows. -/
theorem double_of_heavy {s : State} {m : Member} (hmem : m ∈ s.members)
    (h : 16383 < m.weight.val) : s.double m.identity = .overflow ∨
      ∃ s', s' ≠ s ∧ s.double m.identity = .error s' .weightOverflow := by
  have hfind := find_of_mem hmem
  by_cases hdouble : m.weight.val * 2 < u16Bound
  · refine Or.inr ⟨_, fun hsame => ?_, double_of_excess hfind (by omega) hdouble⟩
    have hchanged : { m with weight := ⟨m.weight.val * 2, hdouble⟩ } ∈ s.members := by
      rw [← congrArg State.members hsame]
      exact List.mem_map.mpr ⟨m, hmem, by rw [if_pos rfl]⟩
    have heq := List.inj_on_of_nodup_map s.distinct hchanged hmem rfl
    have hweight : m.weight.val * 2 = m.weight.val := congrArg (fun m => m.weight.val) heq
    omega
  · exact Or.inl (double_of_overflow hfind (Nat.not_lt.mp hdouble))

/-- No error of a lighter operation leaves a trace, and none of them overflows. -/
theorem apply_of_light {s : State} {r : Request} (h : ¬s.Heavy r) :
    (∃ s', s.apply r = .ok s') ∨ ∃ e, s.apply r = .error s e := by
  unfold apply
  split
  · unfold upsert
    split
    · exact Or.inl ⟨_, rfl⟩
    · split
      · exact Or.inr ⟨_, rfl⟩
      · exact Or.inl ⟨_, rfl⟩
  · unfold remove
    split
    · exact Or.inr ⟨_, rfl⟩
    · split
      · exact Or.inr ⟨_, rfl⟩
      · exact Or.inl ⟨_, rfl⟩
  · rename_i hop
    exact double_of_light fun m hmem hid => Nat.not_lt.mp fun hlt => h ⟨hop, m, hmem, hid, hlt⟩
  · unfold halve
    split
    · exact Or.inr ⟨_, rfl⟩
    · exact Or.inl ⟨_, rfl⟩

theorem apply_of_heavy {s : State} {r : Request} (h : s.Heavy r) :
    s.apply r = .overflow ∨ ∃ s', s' ≠ s ∧ s.apply r = .error s' .weightOverflow := by
  obtain ⟨hop, m, hmem, hid, hheavy⟩ := h
  have hdouble : s.apply r = s.double m.identity := by
    unfold apply
    rw [hop, hid]
  rw [hdouble]
  exact double_of_heavy hmem hheavy

end State

/-! ### Slots and the checkpoint block -/

/-- The fields of a log slot that its checksum covers. -/
structure Entry where
  /-- The checksum of the entry before, or the chain head of the checkpoint. -/
  parent : Nat
  memberIdentity : Nat
  sequence : Nat
  weight : Weight
  learner : Nat
  op : Op
deriving DecidableEq, Repr

/-- The operation of an entry. -/
def Entry.request (entry : Entry) : Request :=
  ⟨entry.op, entry.memberIdentity, entry.weight, entry.learner != 0⟩

structure WALSlot where
  magic : Nat
  checksum : Nat
  entry : Entry
deriving DecidableEq, Repr

structure CheckpointEntry where
  identity : Nat
  weight : Weight
  learner : Nat
deriving DecidableEq, Repr

/-- An entry goes into the state as a member is added. -/
def CheckpointEntry.request (entry : CheckpointEntry) : Request :=
  ⟨.addOne, entry.identity, entry.weight, entry.learner != 0⟩

/-- The fields of the checkpoint block that its checksum covers. -/
structure Block where
  magic : Nat
  version : Nat
  count : Nat
  walLastChecksum : Nat
  walLastSequence : Nat
  entries : List CheckpointEntry
deriving DecidableEq, Repr

structure Checkpoint where
  block : Block
  checksum : Nat
deriving DecidableEq, Repr

/-- The checksums of the two formats. -/
structure Digests where
  slot : Entry → Nat
  block : Block → Nat

abbrev magicNumber : Nat := 0x5f757672726d656d6265727368697001

abbrev checkpointMagic : Nat := 0x5f75767272636b7074315f00000000

namespace WALSlot

/-- A slot that was never written. -/
def zeroed : WALSlot := ⟨0, 0, ⟨0, 0, 0, 0, 0, .addOne⟩⟩

def valid (digests : Digests) (slot : WALSlot) : Bool :=
  slot.magic == magicNumber && slot.checksum == digests.slot slot.entry

end WALSlot

/-- What a checkpoint decodes to, and what a replay makes of it. -/
structure Replayed where
  state : State
  walLastChecksum : Nat
  walLastSequence : Nat
  walCount : Nat

inductive LoadError where
  | quorumLost
  | overflow
deriving DecidableEq, Repr

namespace Checkpoint

def entryOf (m : Member) : CheckpointEntry := ⟨m.identity, m.weight, m.learner.toNat⟩

def encode (digests : Digests) (state : State) (walLastChecksum walLastSequence : Nat) :
    Checkpoint :=
  let block : Block :=
    { magic := checkpointMagic
      version := 1
      count := state.members.length
      walLastChecksum := walLastChecksum
      walLastSequence := walLastSequence
      entries := state.members.map entryOf ++
        List.replicate (membersCapacity - state.members.length) ⟨0, 0, 0⟩ }
  ⟨block, digests.block block⟩

/-- The entries of a block put into a state one after the other. -/
def addAll (state : State) : List CheckpointEntry → Except LoadError State
  | [] => .ok state
  | entry :: entries =>
    match state.apply entry.request with
    | .ok state => addAll state entries
    | .error _ _ => .error .quorumLost
    | .overflow => .error .overflow

/-- A load answers `quorumLost` whatever the reason is. -/
def decode (digests : Digests) (checkpoint : Checkpoint) : Except LoadError Replayed := do
  if checkpoint.block.magic ≠ checkpointMagic then .error .quorumLost
  if checkpoint.block.version ≠ 1 then .error .quorumLost
  if membersCapacity < checkpoint.block.count then .error .quorumLost
  if checkpoint.checksum ≠ digests.block checkpoint.block then .error .quorumLost
  let state ← addAll .empty (checkpoint.block.entries.take checkpoint.block.count)
  return ⟨state, checkpoint.block.walLastChecksum, checkpoint.block.walLastSequence, 0⟩

end Checkpoint

/-! ### Replay -/

/-- One slot of the replay. It is passed over when it was never written, when it is torn, when it
does not continue the chain, and when it is older than what was replayed. -/
def replaySlot (digests : Digests) (acc : Replayed) (slot : WALSlot) : Except LoadError Replayed :=
  if slot.magic ≠ magicNumber then .ok acc
  else if ¬slot.valid digests then .ok acc
  else if acc.walLastChecksum ≠ 0 ∧ slot.entry.parent ≠ acc.walLastChecksum then .ok acc
  else if slot.entry.sequence ≤ acc.walLastSequence then .ok acc
  else
    match acc.state.apply slot.entry.request with
    | .ok state => .ok ⟨state, slot.checksum, slot.entry.sequence, acc.walCount + 1⟩
    | .error _ _ => .error .quorumLost
    | .overflow => .error .overflow

def replay (digests : Digests) : Replayed → List WALSlot → Except LoadError Replayed
  | acc, [] => .ok acc
  | acc, slot :: slots =>
    match replaySlot digests acc slot with
    | .ok acc => replay digests acc slots
    | .error e => .error e

/-- The zones of the data file that hold the membership. -/
structure Zones where
  slots : List WALSlot
  checkpoint : Checkpoint
  complete : slots.length = walSlotCount

namespace Zones

def write (z : Zones) (index : Nat) (slot : WALSlot) : Zones where
  slots := z.slots.set index slot
  checkpoint := z.checkpoint
  complete := by
    rw [List.length_set]
    exact z.complete

def load (digests : Digests) (z : Zones) : Except LoadError Replayed := do
  let decoded ← z.checkpoint.decode digests
  replay digests decoded z.slots

end Zones

/-! ### The store -/

/-- What the process holds of the data file. -/
structure Store where
  checkpointInterval : Nat
  state : State
  walLastChecksum : Nat
  walLastSequence : Nat
  walCount : Nat

def Zones.checkpointed (digests : Digests) (z : Zones) (s : Store) : Zones where
  slots := z.slots
  checkpoint := .encode digests s.state s.walLastChecksum s.walLastSequence
  complete := z.complete

namespace Store

/-- The log starts over behind a checkpoint. -/
def emptied (s : Store) : Store := { s with walCount := 0 }

/-- A checkpoint is taken before the log wraps, and each time as many operations as the interval
says went into it; an interval of 0 never ends. -/
def checkpointDue (s : Store) : Prop :=
  s.walCount = walSlotCount ∨
    0 < s.checkpointInterval ∧ 0 < s.walCount ∧ s.walCount % s.checkpointInterval = 0

instance (s : Store) : Decidable s.checkpointDue := inferInstanceAs (Decidable (_ ∨ _))

/-- The slot of the next entry. -/
def nextSlot (digests : Digests) (s : Store) (r : Request) : WALSlot :=
  let entry : Entry :=
    { parent := s.walLastChecksum
      memberIdentity := r.identity
      sequence := s.walLastSequence + 1
      weight := r.weight
      learner := r.learner.toNat
      op := r.op }
  ⟨magicNumber, digests.slot entry, entry⟩

/-- The store behind an entry. -/
def appended (digests : Digests) (s : Store) (r : Request) (state : State) : Store where
  checkpointInterval := s.checkpointInterval
  state := state
  walLastChecksum := (s.nextSlot digests r).checksum
  walLastSequence := s.walLastSequence + 1
  walCount := s.walCount + 1

end Store

/-- Why an operation ends the process: the product of a weight, or the successor of the last
sequence number of all. -/
inductive Panic where
  | weight
  | sequence
deriving DecidableEq, Repr

/-- An operation as far as its write: it ends the process, or is refused, or writes a slot and
leaves the store behind it. -/
inductive Staged where
  | panicked (zones : Zones) (why : Panic)
  | refused (store : Store) (zones : Zones) (error : ApplyError)
  | writes (store : Store) (zones : Zones) (index : Nat) (slot : WALSlot)

/-- An operation without its checkpoint. -/
def Store.append (digests : Digests) (s : Store) (z : Zones) (r : Request) : Staged :=
  if u64Bound ≤ s.walLastSequence + 1 then .panicked z .sequence
  else
    match s.state.apply r with
    | .overflow => .panicked z .weight
    | .error state error => .refused { s with state := state } z error
    | .ok state =>
      .writes (s.appended digests r state) z (s.walCount % walSlotCount) (s.nextSlot digests r)

def Store.stage (digests : Digests) (s : Store) (z : Zones) (r : Request) : Staged :=
  if s.checkpointDue then s.emptied.append digests (z.checkpointed digests s) r
  else s.append digests z r

/-! ### What a load reads -/

/-- The replay accepts the slots one by one. -/
inductive Accepts (digests : Digests) : Replayed → List WALSlot → Replayed → Prop where
  | nil (acc : Replayed) : Accepts digests acc [] acc
  | snoc {acc mid : Replayed} {slots : List WALSlot} {slot : WALSlot} {state : State}
      (h : Accepts digests acc slots mid)
      (hmagic : slot.magic = magicNumber)
      (hvalid : slot.valid digests = true)
      (hparent : slot.entry.parent = mid.walLastChecksum)
      (hsequence : slot.entry.sequence = mid.walLastSequence + 1)
      (hstate : mid.state.apply slot.entry.request = .ok state) :
      Accepts digests acc (slots ++ [slot])
        ⟨state, slot.checksum, slot.entry.sequence, mid.walCount + 1⟩

/-- A slot that a replay passes over once it is past a sequence number. -/
def Stale (digests : Digests) (sequence : Nat) (slot : WALSlot) : Prop :=
  slot.valid digests = true → slot.entry.sequence ≤ sequence

/-- **What the zones hold.** The block, a prefix of the slots that continues it, and slots that are
passed over. -/
structure Zones.Holds (digests : Digests) (z : Zones) (rep : Replayed) : Prop where
  intro ::
  split : ∃ base live stale, z.checkpoint.decode digests = .ok base ∧ base.walCount = 0 ∧
    z.slots = live ++ stale ∧ Accepts digests base live rep ∧
    ∀ slot ∈ stale, Stale digests rep.walLastSequence slot

variable {digests : Digests}

theorem replay_append {acc : Replayed} {front back : List WALSlot} {mid : Replayed}
    (h : replay digests acc front = .ok mid) :
    replay digests acc (front ++ back) = replay digests mid back := by
  induction front generalizing acc with
  | nil =>
    cases h
    rfl
  | cons slot front ih =>
    rw [List.cons_append, replay]
    rw [replay] at h
    split at h
    · exact ih h
    · cases h

theorem replaySlot_stale {acc : Replayed} {slot : WALSlot}
    (h : Stale digests acc.walLastSequence slot) : replaySlot digests acc slot = .ok acc := by
  unfold replaySlot
  split
  · rfl
  · split
    · rfl
    · rename_i hvalid
      have hold := h (not_not.mp hvalid)
      rw [if_pos hold]
      split <;> rfl

theorem replay_stale {acc : Replayed} {slots : List WALSlot}
    (h : ∀ slot ∈ slots, Stale digests acc.walLastSequence slot) :
    replay digests acc slots = .ok acc := by
  induction slots with
  | nil => rfl
  | cons slot slots ih =>
    obtain ⟨hslot, hslots⟩ := List.forall_mem_cons.mp h
    rw [replay, replaySlot_stale hslot]
    exact ih hslots

theorem Accepts.replay {acc rep : Replayed} {slots : List WALSlot}
    (h : Accepts digests acc slots rep) : replay digests acc slots = .ok rep := by
  induction h with
  | nil => rfl
  | snoc h hmagic hvalid hparent hsequence hstate ih =>
    rw [replay_append ih, Zig.replay, replaySlot, if_neg (not_not.mpr hmagic),
      if_neg (not_not.mpr hvalid), if_neg (fun hne => hne.2 hparent), if_neg (by omega), hstate]
    rfl

theorem Accepts.count {acc rep : Replayed} {slots : List WALSlot}
    (h : Accepts digests acc slots rep) : rep.walCount = acc.walCount + slots.length := by
  induction h with
  | nil => rfl
  | snoc h hmagic hvalid hparent hsequence hstate ih =>
    rw [List.length_append, List.length_singleton, ih]
    rfl

/-- The slots replayed are no newer than the last of them. -/
theorem Accepts.stale {acc rep : Replayed} {slots : List WALSlot}
    (h : Accepts digests acc slots rep) :
    acc.walLastSequence ≤ rep.walLastSequence ∧
      ∀ slot ∈ slots, slot.entry.sequence ≤ rep.walLastSequence := by
  induction h with
  | nil => exact ⟨Nat.le_refl _, fun slot hmem => absurd hmem List.not_mem_nil⟩
  | snoc h hmagic hvalid hparent hsequence hstate ih =>
    obtain ⟨hle, hall⟩ := ih
    have hgrown := Nat.le_of_lt (Nat.lt_of_succ_le (Nat.le_of_eq hsequence.symm))
    refine ⟨Nat.le_trans hle hgrown, fun slot hmem => ?_⟩
    rcases List.mem_append.mp hmem with hmem | hmem
    · exact Nat.le_trans (hall slot hmem) hgrown
    · rw [List.mem_singleton.mp hmem]

theorem Zones.Holds.load {z : Zones} {rep : Replayed} (h : z.Holds digests rep) :
    z.load digests = .ok rep := by
  obtain ⟨base, live, stale, hdecode, -, hslots, haccepts, hstale⟩ := h.split
  rw [Zones.load, hdecode, hslots]
  exact (replay_append haccepts.replay).trans (replay_stale hstale)

/-! ### The block reads back what was put into it -/

theorem State.upsert_fresh {s : State} {m : Member} (h : 1 ≤ m.weight.val)
    (hnew : m.identity ∉ s.members.map Member.identity)
    (hroom : s.members.length < membersCapacity) :
    ∃ s', s.upsert m h = .ok s' ∧ s'.members = s.members ++ [m] := by
  unfold upsert
  split
  · rename_i other hfind
    obtain ⟨hmem, hid⟩ := mem_of_find hfind
    exact absurd (hid ▸ List.mem_map_of_mem hmem) hnew
  · rw [dif_neg (Nat.ne_of_lt hroom)]
    exact ⟨_, rfl, rfl⟩

theorem atLeastOne_eq {weight : Weight} (h : 1 ≤ weight.val) : State.atLeastOne weight = weight :=
  if_neg (Nat.ne_of_gt h)

theorem learner_toNat (learner : Bool) : (learner.toNat != 0) = learner := by
  cases learner <;> rfl

/-- Members put into a state one after the other stand in it in this order. -/
theorem Checkpoint.addAll_members {s final : State} {members : List Member}
    (h : final.members = s.members ++ members) :
    addAll s (members.map entryOf) = .ok final := by
  induction members generalizing s with
  | nil =>
    rw [List.append_nil] at h
    rw [State.ext h]
    rfl
  | cons m members ih =>
    have hweight : 1 ≤ m.weight.val := final.weighted m (by rw [h]; simp)
    have hdistinct := final.distinct
    rw [h, List.map_append, List.map_cons] at hdistinct
    have hnew : m.identity ∉ s.members.map Member.identity := fun hmem =>
      (List.nodup_append.mp hdistinct).2.2 _ hmem _ List.mem_cons_self rfl
    have hroom : s.members.length < membersCapacity := by
      have hfits := final.fits
      rw [h, List.length_append, List.length_cons] at hfits
      omega
    obtain ⟨s', hupsert, hmembers⟩ := s.upsert_fresh hweight hnew hroom
    have hsame : (⟨m.identity, State.atLeastOne m.weight, m.learner.toNat != 0⟩ : Member) = m := by
      rw [atLeastOne_eq hweight, learner_toNat]
    have happly : s.apply (entryOf m).request = .ok s' := by
      simp only [State.apply, CheckpointEntry.request, entryOf, hsame]
      exact hupsert
    rw [List.map_cons, addAll, happly]
    refine ih ?_
    rw [h, hmembers, List.append_assoc]
    rfl

theorem Checkpoint.decode_encode (state : State) (checksum sequence : Nat) :
    (encode digests state checksum sequence).decode digests = .ok ⟨state, checksum, sequence, 0⟩ := by
  have htake : (state.members.map entryOf ++
      List.replicate (membersCapacity - state.members.length) (⟨0, 0, 0⟩ : CheckpointEntry)).take
        state.members.length = state.members.map entryOf :=
    List.take_left' (List.length_map _)
  have haddAll := addAll_members (s := State.empty) (List.nil_append state.members).symm
  unfold decode encode
  simp only [ne_eq, not_true, if_false, htake, haddAll, if_neg (Nat.not_lt.mpr state.fits)]
  rfl

namespace Zones.Holds

variable {z : Zones} {rep : Replayed}

/-- A checkpoint puts what a load reads into the block, and every slot is old behind it. -/
theorem checkpointed (h : z.Holds digests rep) {s : Store} (hstate : s.state = rep.state)
    (hchecksum : s.walLastChecksum = rep.walLastChecksum)
    (hsequence : s.walLastSequence = rep.walLastSequence) :
    (z.checkpointed digests s).Holds digests { rep with walCount := 0 } := by
  obtain ⟨base, live, stale, hdecode, -, hslots, haccepts, hstale⟩ := h.split
  refine ⟨⟨{ rep with walCount := 0 }, [], z.slots, ?_, rfl, rfl, .nil _, fun slot hmem hvalid => ?_⟩⟩
  · show (Checkpoint.encode digests s.state s.walLastChecksum s.walLastSequence).decode digests = _
    rw [hstate, hchecksum, hsequence, Checkpoint.decode_encode]
  · rw [hslots] at hmem
    rcases List.mem_append.mp hmem with hmem | hmem
    · exact haccepts.stale.2 slot hmem
    · exact hstale slot hmem hvalid

/-- The slot behind the live ones takes nothing away when it is written. -/
theorem torn (h : z.Holds digests rep) {slot : WALSlot}
    (hslot : Stale digests rep.walLastSequence slot) :
    (z.write rep.walCount slot).Holds digests rep := by
  obtain ⟨base, live, stale, hdecode, hzero, hslots, haccepts, hstale⟩ := h.split
  have hcount : rep.walCount = live.length := by rw [haccepts.count, hzero, Nat.zero_add]
  refine ⟨⟨base, live, stale.set 0 slot, hdecode, hzero, ?_, haccepts, fun other hmem => ?_⟩⟩
  · show z.slots.set rep.walCount slot = _
    rw [hslots, hcount, List.set_append_right _ _ (Nat.le_refl _), Nat.sub_self]
  · rcases List.mem_or_eq_of_mem_set hmem with hmem | rfl
    · exact hstale other hmem
    · exact hslot

/-- An entry that continues the log is read behind what was read before. -/
theorem written (h : z.Holds digests rep) (hroom : rep.walCount < walSlotCount) {slot : WALSlot}
    {state : State} (hmagic : slot.magic = magicNumber) (hvalid : slot.valid digests = true)
    (hparent : slot.entry.parent = rep.walLastChecksum)
    (hsequence : slot.entry.sequence = rep.walLastSequence + 1)
    (hstate : rep.state.apply slot.entry.request = .ok state) :
    (z.write rep.walCount slot).Holds digests
      ⟨state, slot.checksum, slot.entry.sequence, rep.walCount + 1⟩ := by
  obtain ⟨base, live, stale, hdecode, hzero, hslots, haccepts, hstale⟩ := h.split
  have hcount : rep.walCount = live.length := by rw [haccepts.count, hzero, Nat.zero_add]
  have hlength := z.complete
  rw [hslots, List.length_append] at hlength
  cases stale with
  | nil =>
    rw [List.length_nil] at hlength
    omega
  | cons old stale =>
    refine ⟨⟨base, live ++ [slot], stale, hdecode, hzero, ?_,
      haccepts.snoc hmagic hvalid hparent hsequence hstate, fun other hmem hother => ?_⟩⟩
    · show z.slots.set rep.walCount slot = _
      rw [hslots, hcount, List.set_append_right _ _ (Nat.le_refl _), Nat.sub_self]
      simp
    · have hle := hstale other (List.mem_cons_of_mem _ hmem) hother
      exact Nat.le_trans hle (hsequence ▸ Nat.le_succ _)

end Zones.Holds

/-! ### Lives of one data file -/

/-- The data file, the store of the life that has it open, the operations that returned success,
and the one in whose write the life before ended, with its sequence number. -/
structure Node where
  zones : Zones
  store : Option Store
  acked : List Request
  inFlight : Option (Request × Nat)

/-- The operation in flight counts once its entry is what a load ends on. -/
def Node.settled (n : Node) (walLastSequence : Nat) : List Request :=
  match n.inFlight with
  | none => n.acked
  | some (r, sequence) => if sequence = walLastSequence then n.acked ++ [r] else n.acked

/-- A formatted data file: an empty state in the block, and slots that were never written. -/
def Node.format (digests : Digests) (checkpointInterval : Nat) : Node where
  zones :=
    { slots := List.replicate walSlotCount .zeroed
      checkpoint := .encode digests .empty 0 0
      complete := List.length_replicate }
  store := some ⟨checkpointInterval, .empty, 0, 0, 0⟩
  acked := []
  inFlight := none

inductive Event where
  | op (r : Request)
  | checkpoint
  | crash
  /-- A crash in the write of a slot, and what it leaves there. -/
  | crashInOp (r : Request) (left : WALSlot)
  | load (checkpointInterval : Nat)

/-- One step. A write lands, or the process dies in it. -/
inductive Step (digests : Digests) : Node → Event → Node → Prop where
  | acked {n : Node} {s s' : Store} {r : Request} {zones : Zones} {index : Nat} {slot : WALSlot}
      (hstore : n.store = some s)
      (hstage : s.stage digests n.zones r = .writes s' zones index slot) :
      Step digests n (.op r) ⟨zones.write index slot, some s', n.acked ++ [r], none⟩
  | refused {n : Node} {s s' : Store} {r : Request} {zones : Zones} {error : ApplyError}
      (hstore : n.store = some s)
      (hstage : s.stage digests n.zones r = .refused s' zones error) :
      Step digests n (.op r) ⟨zones, some s', n.acked, none⟩
  | panicked {n : Node} {s : Store} {r : Request} {zones : Zones} {why : Panic}
      (hstore : n.store = some s)
      (hstage : s.stage digests n.zones r = .panicked zones why) :
      Step digests n (.op r) ⟨zones, none, n.acked, none⟩
  | checkpoint {n : Node} {s : Store} (hstore : n.store = some s) :
      Step digests n .checkpoint
        ⟨n.zones.checkpointed digests s, some s.emptied, n.acked, none⟩
  | crash {n : Node} {s : Store} (hstore : n.store = some s) :
      Step digests n .crash ⟨n.zones, none, n.acked, none⟩
  | crashInOp {n : Node} {s s' : Store} {r : Request} {zones : Zones} {index : Nat}
      {slot left : WALSlot} (hstore : n.store = some s)
      (hstage : s.stage digests n.zones r = .writes s' zones index slot)
      (hleft : zones.slots[index]? = some left ∨ left = slot ∨ left.valid digests = false) :
      Step digests n (.crashInOp r left)
        ⟨zones.write index left, none, n.acked, some (r, slot.entry.sequence)⟩
  | load {n : Node} {rep : Replayed} {checkpointInterval : Nat} (hstore : n.store = none)
      (hload : n.zones.load digests = .ok rep) :
      Step digests n (.load checkpointInterval)
        ⟨n.zones, some ⟨checkpointInterval, rep.state, rep.walLastChecksum, rep.walLastSequence,
          rep.walCount⟩, n.settled rep.walLastSequence, none⟩

/-- A run whose steps all meet a condition on the node and the event. -/
inductive Run (digests : Digests) (Meets : Node → Event → Prop) (start : Node) : Node → Prop where
  | start : Run digests Meets start start
  | step {n n' : Node} {event : Event} (h : Run digests Meets start n) (hmeets : Meets n event)
      (hstep : Step digests n event n') : Run digests Meets start n'

/-- The operation of an event, if it has one, is no doubling of a member that is too heavy. -/
def Light (n : Node) : Event → Prop
  | .op r | .crashInOp r _ => ∀ s, n.store = some s → ¬s.state.Heavy r
  | .checkpoint | .crash | .load _ => True

/-- The state that operations make of another, each of them successful. -/
def applied : State → List Request → Option State
  | s, [] => some s
  | s, r :: rs =>
    match s.apply r with
    | .ok s => applied s rs
    | .error _ _ => none
    | .overflow => none

theorem applied_snoc {s s' s'' : State} {rs : List Request} {r : Request}
    (h : applied s rs = some s') (hr : s'.apply r = .ok s'') : applied s (rs ++ [r]) = some s'' := by
  induction rs generalizing s with
  | nil =>
    cases h
    rw [List.nil_append, applied, hr]
    rfl
  | cons first rs ih =>
    rw [List.cons_append, applied]
    rw [applied] at h
    split at h
    · exact ih h
    · cases h
    · cases h

/-- What a load would read if the data file held what the store does. -/
def Store.replayed (s : Store) : Replayed :=
  ⟨s.state, s.walLastChecksum, s.walLastSequence, s.walCount⟩

theorem Zones.Holds.count_le {z : Zones} {rep : Replayed} (h : z.Holds digests rep) :
    rep.walCount ≤ walSlotCount := by
  obtain ⟨base, live, stale, -, hzero, hslots, haccepts, -⟩ := h.split
  rw [haccepts.count, hzero, Nat.zero_add, ← z.complete, hslots, List.length_append]
  exact Nat.le_add_right _ _

namespace Store

variable {s : Store} {z : Zones} {r : Request}

/-- **One light operation**, behind its checkpoint: refused without a trace, or its entry goes to
the slot behind the live ones. -/
theorem append_of_light (h : z.Holds digests s.replayed) (hroom : s.walCount < walSlotCount)
    (hlight : ¬s.state.Heavy r) :
    s.append digests z r = .panicked z .sequence ∨
    (∃ error, s.append digests z r = .refused s z error) ∨
    ∃ state, s.state.apply r = .ok state ∧
      s.append digests z r =
        .writes (s.appended digests r state) z s.walCount (s.nextSlot digests r) ∧
      (z.write s.walCount (s.nextSlot digests r)).Holds digests
        (s.appended digests r state).replayed := by
  unfold append
  split
  · exact Or.inl rfl
  · rcases State.apply_of_light hlight with ⟨state, happly⟩ | ⟨error, happly⟩
    · refine Or.inr (Or.inr ⟨state, happly, ?_, ?_⟩)
      · rw [happly, Nat.mod_eq_of_lt hroom]
      · have hvalid : (s.nextSlot digests r).valid digests = true := by
          simp [nextSlot, WALSlot.valid]
        have hrequest : (s.nextSlot digests r).entry.request = r := by
          simp only [nextSlot, Entry.request, learner_toNat]
        have hstate : s.replayed.state.apply (s.nextSlot digests r).entry.request = .ok state := by
          rw [hrequest]
          exact happly
        exact h.written hroom rfl hvalid rfl rfl hstate
    · rw [happly]
      exact Or.inr (Or.inl ⟨error, rfl⟩)

/-- **One light operation.** Whatever comes of it, the zones before its write hold the state the
store had, and the store and the zones behind it agree. -/
theorem stage_of_light (h : z.Holds digests s.replayed) (hlight : ¬s.state.Heavy r) :
    ∃ zones count, zones.Holds digests { s.replayed with walCount := count } ∧
      (s.stage digests z r = .panicked zones .sequence ∨
      (∃ s' error, s.stage digests z r = .refused s' zones error ∧
        s'.replayed = { s.replayed with walCount := count }) ∨
      ∃ s' slot, s.stage digests z r = .writes s' zones count slot ∧
        s.state.apply r = .ok s'.state ∧ slot.entry.sequence = s.walLastSequence + 1 ∧
        s'.walLastSequence = s.walLastSequence + 1 ∧
        (zones.write count slot).Holds digests s'.replayed) := by
  unfold stage
  split
  · have hchecked : (z.checkpointed digests s).Holds digests s.emptied.replayed :=
      h.checkpointed rfl rfl rfl
    refine ⟨_, 0, hchecked, ?_⟩
    have hroom : s.emptied.walCount < walSlotCount := Nat.succ_pos 7
    rcases append_of_light hchecked hroom hlight with
      hpanic | ⟨error, hrefused⟩ | ⟨state, happly, hwrites, hholds⟩
    · exact Or.inl hpanic
    · exact Or.inr (Or.inl ⟨_, error, hrefused, rfl⟩)
    · exact Or.inr (Or.inr ⟨_, _, hwrites, happly, rfl, rfl, hholds⟩)
  · rename_i hdue
    have hroom : s.walCount < walSlotCount := by
      have hle : s.walCount ≤ walSlotCount := h.count_le
      exact Nat.lt_of_le_of_ne hle fun heq => hdue (Or.inl heq)
    refine ⟨z, s.walCount, h, ?_⟩
    rcases append_of_light h hroom hlight with
      hpanic | ⟨error, hrefused⟩ | ⟨state, happly, hwrites, hholds⟩
    · exact Or.inl hpanic
    · exact Or.inr (Or.inl ⟨_, error, hrefused, rfl⟩)
    · exact Or.inr (Or.inr ⟨_, _, hwrites, happly, rfl, rfl, hholds⟩)

end Store

/-- **The invariant.** The zones hold the state that the settled operations make, and a live store
holds the same. -/
structure Node.Sound (digests : Digests) (n : Node) : Prop where
  intro ::
  holds : ∃ rep, n.zones.Holds digests rep ∧
    applied .empty (n.settled rep.walLastSequence) = some rep.state ∧
    ∀ s, n.store = some s → n.inFlight = none ∧ s.replayed = rep

theorem Node.format_sound (checkpointInterval : Nat) :
    (Node.format digests checkpointInterval).Sound digests := by
  refine ⟨⟨⟨.empty, 0, 0, 0⟩, ⟨⟨⟨.empty, 0, 0, 0⟩, [], List.replicate walSlotCount .zeroed,
    Checkpoint.decode_encode _ _ _, rfl, rfl, .nil _, fun slot hmem _ => ?_⟩⟩, rfl,
    fun s hstore => ⟨rfl, ?_⟩⟩⟩
  · rw [List.eq_of_mem_replicate hmem]
    exact Nat.le_refl _
  · cases hstore
    rfl

/-- With nothing in flight what counts is what was acknowledged. -/
theorem Node.settled_of_none {n : Node} (h : n.inFlight = none) (walLastSequence : Nat) :
    n.settled walLastSequence = n.acked := by
  rw [settled, h]

theorem Node.settled_lost {n : Node} {r : Request} {sequence walLastSequence : Nat}
    (h : n.inFlight = some (r, sequence)) (hne : sequence ≠ walLastSequence) :
    n.settled walLastSequence = n.acked := by
  rw [settled, h]
  exact if_neg hne

theorem Node.settled_landed {n : Node} {r : Request} {sequence walLastSequence : Nat}
    (h : n.inFlight = some (r, sequence)) (heq : sequence = walLastSequence) :
    n.settled walLastSequence = n.acked ++ [r] := by
  rw [settled, h]
  exact if_pos heq

/-- **One step** keeps it. -/
theorem Step.sound {n n' : Node} {event : Event} (h : Step digests n event n')
    (hlight : Light n event) (hsound : n.Sound digests) : n'.Sound digests := by
  obtain ⟨rep, hholds, happlied, hlive⟩ := hsound.holds
  cases h with
  | @acked s s' r zones index slot hstore hstage =>
    obtain ⟨hnone, rfl⟩ := hlive _ hstore
    rw [Node.settled_of_none hnone] at happlied
    obtain ⟨zones', count, -, hpanic | ⟨s'', error, hrefused, -⟩ |
      ⟨s'', slot', hwrites, happly, -, -, hwritten⟩⟩ := Store.stage_of_light hholds (hlight _ hstore)
    · cases hstage.symm.trans hpanic
    · cases hstage.symm.trans hrefused
    · cases hstage.symm.trans hwrites
      exact ⟨⟨s'.replayed, hwritten, applied_snoc happlied happly,
        fun s hs => ⟨rfl, by cases hs; rfl⟩⟩⟩
  | refused hstore hstage =>
    obtain ⟨hnone, rfl⟩ := hlive _ hstore
    rw [Node.settled_of_none hnone] at happlied
    obtain ⟨zones, count, hzones, hpanic | ⟨s', error, hrefused, hsame⟩ |
      ⟨s', slot, hwrites, -⟩⟩ := Store.stage_of_light hholds (hlight _ hstore)
    · cases hstage.symm.trans hpanic
    · cases hstage.symm.trans hrefused
      exact ⟨⟨_, hzones, happlied, fun s hs => ⟨rfl, by cases hs; exact hsame⟩⟩⟩
    · cases hstage.symm.trans hwrites
  | panicked hstore hstage =>
    obtain ⟨hnone, rfl⟩ := hlive _ hstore
    rw [Node.settled_of_none hnone] at happlied
    obtain ⟨zones, count, hzones, hpanic | ⟨s', error, hrefused, -⟩ |
      ⟨s', slot, hwrites, -⟩⟩ := Store.stage_of_light hholds (hlight _ hstore)
    · cases hstage.symm.trans hpanic
      exact ⟨⟨_, hzones, happlied, fun s hs => by cases hs⟩⟩
    · cases hstage.symm.trans hrefused
    · cases hstage.symm.trans hwrites
  | checkpoint hstore =>
    obtain ⟨hnone, rfl⟩ := hlive _ hstore
    rw [Node.settled_of_none hnone] at happlied
    exact ⟨⟨_, hholds.checkpointed rfl rfl rfl, happlied, fun s hs => ⟨rfl, by cases hs; rfl⟩⟩⟩
  | crash hstore =>
    obtain ⟨hnone, rfl⟩ := hlive _ hstore
    rw [Node.settled_of_none hnone] at happlied
    exact ⟨⟨_, hholds, happlied, fun s hs => by cases hs⟩⟩
  | @crashInOp s s' r zones index slot left hstore hstage hleft =>
    obtain ⟨hnone, rfl⟩ := hlive _ hstore
    rw [Node.settled_of_none hnone] at happlied
    obtain ⟨zones', count, hzones, hpanic | ⟨s'', error, hrefused, -⟩ |
      ⟨s'', slot', hwrites, happly, hsequence, hlast, hwritten⟩⟩ :=
        Store.stage_of_light hholds (hlight _ hstore)
    · cases hstage.symm.trans hpanic
    · cases hstage.symm.trans hrefused
    · cases hstage.symm.trans hwrites
      have hlost : ∀ {zones : Zones},
          zones.Holds digests { s.replayed with walCount := index } →
          Node.Sound digests ⟨zones, none, n.acked, some (r, slot.entry.sequence)⟩ := by
        intro zones hzones
        refine ⟨⟨_, hzones, ?_, fun s hs => by cases hs⟩⟩
        have hne : slot.entry.sequence ≠ s.walLastSequence := by omega
        exact (congrArg (applied .empty) (Node.settled_lost rfl hne)).trans happlied
      rcases hleft with hold | rfl | htorn
      · refine hlost ?_
        have hsame : zones.write index left = zones := by
          obtain ⟨slots, checkpoint, complete⟩ := zones
          simp only [Zones.write, Zones.mk.injEq, and_true]
          obtain ⟨hlt, heq⟩ := List.getElem?_eq_some_iff.mp hold
          rw [← heq]
          exact List.set_getElem_self hlt
        rw [hsame]
        exact hzones
      · refine ⟨⟨_, hwritten, ?_, fun s hs => by cases hs⟩⟩
        have hlanded := Node.settled_landed (n := ⟨zones.write index left, none, n.acked,
          some (r, left.entry.sequence)⟩) rfl (hsequence.trans hlast.symm)
        exact (congrArg (applied .empty) hlanded).trans (applied_snoc happlied happly)
      · exact hlost (hzones.torn fun hvalid => by rw [htorn] at hvalid; cases hvalid)
  | load hstore hload =>
    cases hholds.load.symm.trans hload
    exact ⟨⟨_, hholds, happlied, fun s hs => ⟨rfl, by cases hs; rfl⟩⟩⟩

theorem Run.sound {start n : Node} (h : Run digests Light start n) (hstart : start.Sound digests) :
    n.Sound digests := by
  induction h with
  | start => exact hstart
  | step h hmeets hstep ih => exact hstep.sound hmeets ih

/-- What is promised of one operation: no weight ends the process, a refusal changes neither the
store nor what a load reads, and a write goes to a slot that holds nothing a load would miss. -/
structure Clean (digests : Digests) (s : Store) (z : Zones) (r : Request) : Prop where
  overflows : ∀ zones why, s.stage digests z r = .panicked zones why → why ≠ .weight
  refused : ∀ s' zones error, s.stage digests z r = .refused s' zones error →
    s'.state = s.state ∧ ∃ rep rep', z.load digests = .ok rep ∧ zones.load digests = .ok rep' ∧
      rep'.state = rep.state
  appends : ∀ s' zones index slot, s.stage digests z r = .writes s' zones index slot →
    ∀ torn : WALSlot, torn.valid digests = false →
      (zones.write index torn).load digests = zones.load digests

theorem Store.append_of_heavy {s : Store} {r : Request} (h : s.state.Heavy r)
    (hroom : s.walLastSequence + 1 < u64Bound) (z : Zones) :
    s.append digests z r = .panicked z .weight ∨
      ∃ s', s'.state ≠ s.state ∧ s.append digests z r = .refused s' z .weightOverflow := by
  unfold append
  rw [if_neg (Nat.not_le.mpr hroom)]
  rcases State.apply_of_heavy h with happly | ⟨state, hne, happly⟩
  · rw [happly]
    exact Or.inl rfl
  · rw [happly]
    exact Or.inr ⟨_, hne, rfl⟩

theorem Store.stage_of_heavy {s : Store} {r : Request} (h : s.state.Heavy r)
    (hroom : s.walLastSequence + 1 < u64Bound) (z : Zones) :
    ∃ zones, s.stage digests z r = .panicked zones .weight ∨
      ∃ s', s'.state ≠ s.state ∧ s.stage digests z r = .refused s' zones .weightOverflow := by
  unfold stage
  split
  · exact ⟨_, append_of_heavy (s := s.emptied) h hroom _⟩
  · exact ⟨_, append_of_heavy h hroom _⟩

theorem Store.clean_of_light {s : Store} {z : Zones} {r : Request} (h : z.Holds digests s.replayed)
    (hlight : ¬s.state.Heavy r) : Clean digests s z r := by
  obtain ⟨zones, count, hzones, hstage⟩ := stage_of_light h hlight
  refine ⟨fun zones' why hpanic => ?_, fun s' zones' error hrefused => ?_,
    fun s' zones' index slot hwrites torn htorn => ?_⟩
  · rcases hstage with hpanic' | ⟨_, _, hrefused', -⟩ | ⟨_, _, hwrites', -⟩
    · cases hpanic.symm.trans hpanic'
      exact fun hwhy => by cases hwhy
    · cases hpanic.symm.trans hrefused'
    · cases hpanic.symm.trans hwrites'
  · rcases hstage with hpanic' | ⟨_, _, hrefused', hsame⟩ | ⟨_, _, hwrites', -⟩
    · cases hrefused.symm.trans hpanic'
    · cases hrefused.symm.trans hrefused'
      exact ⟨congrArg Replayed.state hsame, _, _, h.load, hzones.load, rfl⟩
    · cases hrefused.symm.trans hwrites'
  · rcases hstage with hpanic' | ⟨_, _, hrefused', -⟩ | ⟨_, _, hwrites', -⟩
    · cases hwrites.symm.trans hpanic'
    · cases hwrites.symm.trans hrefused'
    · cases hwrites.symm.trans hwrites'
      rw [hzones.load]
      exact (hzones.torn fun hvalid => by rw [htorn] at hvalid; cases hvalid).load

/-- The promise is kept by the light operations, and otherwise only by one that finds no sequence
number left. -/
theorem Store.clean_iff {s : Store} {z : Zones} (h : z.Holds digests s.replayed) (r : Request) :
    Clean digests s z r ↔ ¬s.state.Heavy r ∨ u64Bound ≤ s.walLastSequence + 1 := by
  constructor
  · intro hclean
    by_contra hneither
    obtain ⟨hheavy, hroom⟩ := not_or.mp hneither
    obtain ⟨zones, hpanic | ⟨s', hne, hrefused⟩⟩ :=
      stage_of_heavy (not_not.mp hheavy) (Nat.not_le.mp hroom) z
    · exact hclean.overflows _ _ hpanic rfl
    · exact hne (hclean.refused _ _ _ hrefused).1
  · rintro (hlight | hfull)
    · exact clean_of_light h hlight
    · have hstage : ∃ zones, s.stage digests z r = .panicked zones .sequence := by
        unfold stage
        split
        · exact ⟨_, if_pos hfull⟩
        · exact ⟨_, if_pos hfull⟩
      obtain ⟨zones, hpanic⟩ := hstage
      refine ⟨fun zones' why hpanic' => ?_, fun s' zones' error hrefused => ?_,
        fun s' zones' index slot hwrites => ?_⟩
      · cases hpanic'.symm.trans hpanic
        exact fun hwhy => by cases hwhy
      · cases hrefused.symm.trans hpanic
      · cases hwrites.symm.trans hpanic

/-- **Membership recovery.** In every run whose operations are light a load reads the state that
the successful operations make, with the one in flight or without it, and it is the state of a
live store. And there a store keeps its promise on exactly the light operations. -/
theorem membership_recovers {checkpointInterval : Nat} {n : Node}
    (h : Run digests Light (Node.format digests checkpointInterval) n) :
    (∃ rep, n.zones.load digests = .ok rep ∧
      (applied .empty n.acked = some rep.state ∨
        ∃ r sequence, n.inFlight = some (r, sequence) ∧
          applied .empty (n.acked ++ [r]) = some rep.state) ∧
      ∀ s, n.store = some s → s.state = rep.state ∧ n.inFlight = none) ∧
    ∀ s, n.store = some s → ∀ r,
      Clean digests s n.zones r ↔ ¬s.state.Heavy r ∨ u64Bound ≤ s.walLastSequence + 1 := by
  obtain ⟨rep, hholds, happlied, hlive⟩ := (h.sound (Node.format_sound _)).holds
  refine ⟨⟨rep, hholds.load, ?_, fun s hs => ?_⟩, fun s hs r => ?_⟩
  · cases hflight : n.inFlight with
    | none =>
      rw [Node.settled_of_none hflight] at happlied
      exact Or.inl happlied
    | some flight =>
      obtain ⟨r, sequence⟩ := flight
      by_cases heq : sequence = rep.walLastSequence
      · rw [Node.settled_landed hflight heq] at happlied
        exact Or.inr ⟨r, sequence, rfl, happlied⟩
      · rw [Node.settled_lost hflight heq] at happlied
        exact Or.inl happlied
  · obtain ⟨hnone, rfl⟩ := hlive s hs
    exact ⟨rfl, hnone⟩
  · obtain ⟨-, rfl⟩ := hlive s hs
    exact Store.clean_iff hholds r

/-- Checksums that tell apart entries, and blocks, of different sequence numbers. -/
def numbered : Digests := ⟨fun entry => entry.sequence, fun block => block.walLastSequence + 1⟩

theorem light_of_weights {n : Node} {event : Event}
    (h : ∀ s, n.store = some s → ∀ m ∈ s.state.members, m.weight.val ≤ 16383) : Light n event := by
  have hlight : ∀ r s, n.store = some s → ¬s.state.Heavy r := by
    rintro r s hs ⟨-, m, hmem, -, hheavy⟩
    exact absurd (h s hs m hmem) (Nat.not_le.mpr hheavy)
  cases event with
  | op r => exact hlight r
  | crashInOp r left => exact hlight r
  | checkpoint | crash | load interval => trivial

/-- A member is added and the process dies in the write of its doubling: the load finds it done. -/
theorem membership_recovers_doubled :
    ∃ (n : Node) (rep : Replayed), n.acked = [⟨.addOne, 1, 3, false⟩] ∧ n.store.isNone ∧
      n.zones.load numbered = .ok rep ∧ rep.state.members = [⟨1, 6, false⟩] ∧
      (applied .empty n.acked = some rep.state ∨ ∃ r sequence, n.inFlight = some (r, sequence) ∧
        applied .empty (n.acked ++ [r]) = some rep.state) := by
  let add : Request := ⟨.addOne, 1, 3, false⟩
  let double : Request := ⟨.double, 1, 0, false⟩
  have hadd : Step numbered (Node.format numbered 4) (.op add) _ := .acked rfl rfl
  have hrun : Run numbered Light (Node.format numbered 4) _ :=
    .step .start (light_of_weights fun s hs m hmem => by cases hs; cases hmem) hadd
  have hdouble := hrun.step
    (light_of_weights fun s hs m hmem => by
      cases hs
      rw [List.mem_singleton.mp hmem]
      decide)
    (.crashInOp (r := double) rfl rfl (Or.inr (Or.inl rfl)))
  obtain ⟨⟨rep, hload, happlied, -⟩, -⟩ := membership_recovers hdouble
  refine ⟨_, rep, rfl, rfl, hload, ?_, happlied⟩
  cases hload
  rfl

/-- A doubling that is refused as too much is in the next checkpoint all the same, and the next
doubling overflows. -/
theorem membership_keeps_refused :
    ∃ (n : Node) (s : Store) (rep : Replayed) (recovered : State),
      Run numbered (fun _ _ => True) (Node.format numbered 4) n ∧
      n.store = some s ∧ n.acked = [⟨.addOne, 1, 16384, false⟩] ∧ n.inFlight = none ∧
      n.zones.load numbered = .ok rep ∧ rep.state.members = [⟨1, 32768, false⟩] ∧
      applied .empty n.acked = some recovered ∧ recovered.members = [⟨1, 16384, false⟩] ∧
      ∃ zones, s.stage numbered n.zones ⟨.double, 1, 0, false⟩ = .panicked zones .weight := by
  let add : Request := ⟨.addOne, 1, 16384, false⟩
  let double : Request := ⟨.double, 1, 0, false⟩
  let grown : State := ⟨[⟨1, 16384, false⟩], by decide, by decide, by decide⟩
  let excess : State := ⟨[⟨1, 32768, false⟩], by decide, by decide, by decide⟩
  have hfound : grown.find 1 = some ⟨1, 16384, false⟩ := rfl
  have hexcess : grown.apply double = .error excess .weightOverflow :=
    State.double_of_excess hfound (by decide) (by decide)
  have hfound' : excess.find 1 = some ⟨1, 32768, false⟩ := rfl
  have hoverflow : excess.apply double = .overflow :=
    State.double_of_overflow hfound' (by decide)
  have hadd : Step numbered (Node.format numbered 4) (.op add) _ := .acked rfl rfl
  have hrun : Run numbered (fun _ _ => True) (Node.format numbered 4) _ := .step .start trivial hadd
  have hrefused : ∀ zones, Store.stage numbered ⟨4, grown, 1, 1, 1⟩ zones double =
      .refused ⟨4, excess, 1, 1, 1⟩ zones .weightOverflow := by
    intro zones
    rw [Store.stage, if_neg (by decide), Store.append, if_neg (by decide), hexcess]
  have hpanicked : ∀ zones, Store.stage numbered ⟨4, excess, 1, 1, 0⟩ zones double =
      .panicked zones .weight := by
    intro zones
    rw [Store.stage, if_neg (by decide), Store.append, if_neg (by decide), hoverflow]
  have hrun := hrun.step trivial (.refused rfl (hrefused _))
  have hrun := hrun.step trivial (.checkpoint rfl)
  exact ⟨_, _, _, grown, hrun, rfl, rfl, rfl, rfl, rfl, rfl, rfl, _, hpanicked _⟩

end UvrrCore.Zig
