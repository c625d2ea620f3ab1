import UvrrCore.LogView
import UvrrCore.Maelstrom.StateFile

/-!
# Lives of the state file

A commit may be cut short: in its frames, or in its slot. `Lasting` is what such a file goes
through from life to life. A replaced tail is overwritten in place: from then on the frames that
the older slot counts are gone, and until the newer slot lands there is no way back.

## Main results

* `lasting_load`: after any such history, the file is read as the last state that landed in it.
* `interrupted_iff`: a commit cut short before its slot landed falls back to the state before it
  exactly if it replaced no frame.
* `mirrors_iff`: what a commit leaves is the journal exactly if no entry that the walk does not
  reach differs.
* `retried_iff`: a commit that failed and is tried again writes no frame any more, so it lands
  exactly if its frames had landed the first time.
-/

namespace UvrrCore

open ByteCodec FixedLayout

namespace Maelstrom

/-! ### First lives -/

/-- The state of a first life, its entries copied out of a view of the journal. -/
def NodeState.snapshot (copies : SuperblockCopies) (roster : List String)
    (progress : PersistedProgress) (view : LogView) : Except RangeOutcome NodeState :=
  match view.accepted with
  | none => .ok ⟨copies, roster, progress, []⟩
  | some frontier =>
    match view.copyOut view.retained.1 frontier [] with
    | (.complete, entries) => .ok ⟨copies, roster, progress, entries⟩
    | (outcome, _) => .error outcome

theorem slotRange_all {first through : Nat} {entries : List LogEntry}
    (h : ContiguousFrom first entries) (hthrough : first + entries.length ≤ through + 1) :
    slotRange entries first through = entries := by
  refine List.filter_eq_self.mpr fun entry hmem => ?_
  have := h.mem_slot hmem
  simp only [Bool.and_eq_true, decide_eq_true_eq]
  omega

/-- **A snapshot is never refused**: it is what the journal holds. -/
theorem snapshot_shows {copies : SuperblockCopies} {roster : List String}
    {progress : PersistedProgress} {view : LogView} {s : HeldLog} (h : view.Shows s) :
    NodeState.snapshot copies roster progress view = .ok ⟨copies, roster, progress, s.entries⟩ := by
  unfold NodeState.snapshot
  rw [h.accepted]
  cases hfrontier : s.accepted with
  | none =>
    have hgenesis := s.genesis
    unfold HeldLog.accepted HeldLog.next at hfrontier
    split at hfrontier
    · have hnone : s.entries.length = 0 := by omega
      rw [List.length_eq_zero_iff.mp hnone]
    · cases hfrontier
  | some frontier =>
    have hgenesis := s.genesis
    have hend : frontier + 1 = s.first + s.entries.length := by
      unfold HeldLog.accepted HeldLog.next at hfrontier
      split at hfrontier
      · cases hfrontier
      · cases hfrontier
        unfold voidSlot at hgenesis
        omega
    simp only
    rw [h.copyOut, h.retained]
    unfold HeldLog.copyOut
    simp only [hfrontier]
    rw [if_neg (Nat.lt_irrefl _)]
    by_cases hempty : frontier < s.first
    · rw [if_pos hempty, List.length_eq_zero_iff.mp (show s.entries.length = 0 by omega)]
    · rw [if_neg hempty, if_neg hempty, if_neg (Nat.lt_irrefl _), List.nil_append,
        HeldLog.range, slotRange_all s.run (by omega)]

section

variable {J : Type} [Journal J] {log : LogFile} {journal : J}

/-! ### Crashes -/

/-- Frames torn behind the counted ones are not read. -/
theorem Holds.torn_append {file file' : List UInt8} {state : NodeState} {offset len : Nat}
    (h : Holds file log state) (hoffset : entriesBase + log.bytes ≤ offset)
    (htorn : Torn file offset len file') : Holds file' log state := by
  have hread : ∀ side, readSlot file' side = readSlot file side := by
    intro side
    have hside := (flip_pos side).1
    rw [readSlot, htorn.window (Or.inl (by omega))]
    rfl
  exact ⟨Nat.le_trans h.sized htorn.grown, (hread _).trans h.active,
    fun slot hslot => h.older slot ((hread _).symm.trans hslot), h.roster, h.run, h.valid,
    h.mirror, h.bytes, (htorn.window (Or.inl hoffset)).trans h.stands⟩

/-- A torn slot beside the active one leaves the file to that. -/
theorem Holds.torn_slot {file file' : List UInt8} {state : NodeState}
    (h : Holds file log state) (htorn : Torn file log.side.flip.pos headerSize file')
    (hunread : readSlot file' log.side.flip = none ∨
      readSlot file' log.side.flip = readSlot file log.side.flip) : Holds file' log state := by
  obtain ⟨hside, hdisjoint⟩ := flip_pos log.side
  have hflip := (flip_pos log.side.flip).1
  refine ⟨Nat.le_trans h.sized htorn.grown, ?_, ?_, h.roster, h.run, h.valid, h.mirror, h.bytes,
    (htorn.window (Or.inr hflip)).trans h.stands⟩
  · rw [readSlot, htorn.window (by omega)]
    exact h.active
  · intro slot hslot
    rcases hunread with hnone | hsame
    · rw [hnone] at hslot
      cases hslot
    · exact h.older slot (hsame.symm.trans hslot)

/-- A commit that appends only leaves the file to the slot before it. -/
theorem Holds.append {file : List UInt8} {state : NodeState} {staged : Staged}
    (h : Holds file log state) (honly : staged.region = [] ∨ staged.writeAt = log.bytes) :
    Holds (staged.append file) log state := by
  rcases honly with hnil | hend
  · rwa [Staged.append, if_pos hnil]
  · have hroom := le_of_window (show entriesBase ≤ file.length from h.sized) (h.bytes ▸ h.stands)
    rw [← h.bytes, ← hend] at hroom
    rw [append_eq hroom]
    exact h.torn_append (by rw [hend]) (torn_put hroom staged.region)

/-- **The life of a state file.** It is created, commits land in it, and a commit may be cut short
in its frames or in its slot; the next life goes on from what it reads. A torn slot does not pass
its checksum, and a commit cut short replaced no frame. -/
inductive Lasting (J : Type) [Journal J] : Slice → LogFile → NodeState → Prop where
  | created {state : NodeState} {file : Slice} {log : LogFile} {first : LogEntry}
      {rest : List LogEntry} (entries : state.entries = first :: rest)
      (run : ContiguousFrom first.slot state.entries)
      (encodable : ∀ entry ∈ state.entries, entry.Encodable)
      (record : Recordable state.copies state.progress) (roster : RosterLawful state.roster)
      (written : create state = .ok (file.bytes, log)) : Lasting J file log state
  | committed {file landed : Slice} {log : LogFile} {state : NodeState}
      {copies : SuperblockCopies} {progress : PersistedProgress} {journal : J} {staged : Staged}
      {frontier stand : Nat} (before : Lasting J file log state)
      (publishes : Publishes log copies progress journal)
      (stage : log.stage copies progress journal = .ok staged)
      (accepted : Journal.accepted journal = some frontier)
      (walk : standing log journal progress.committed
        (min (log.base + log.entries.length - 1) frontier)
        (min (log.base + log.entries.length - 1) frontier) = .ok stand)
      (written : landed.bytes = staged.land log file.bytes) :
      Lasting J landed (log.committed staged) ⟨copies, state.roster, progress,
        durableAfter log.base journal stand frontier state.entries⟩
  | tornFrames {file file' : Slice} {log : LogFile} {state : NodeState}
      {copies : SuperblockCopies} {progress : PersistedProgress} {journal : J} {staged : Staged}
      (before : Lasting J file log state)
      (stage : log.stage copies progress journal = .ok staged)
      (only : log.bytes ≤ staged.writeAt)
      (torn : Torn file.bytes (entriesBase + staged.writeAt) staged.region.length file'.bytes) :
      Lasting J file' log state
  | tornSlot {file file' : Slice} {log : LogFile} {state : NodeState}
      {copies : SuperblockCopies} {progress : PersistedProgress} {journal : J} {staged : Staged}
      (before : Lasting J file log state)
      (stage : log.stage copies progress journal = .ok staged)
      (only : staged.region = [] ∨ staged.writeAt = log.bytes)
      (torn : Torn (staged.append file.bytes) log.side.flip.pos headerSize file'.bytes)
      (unread : readSlot file'.bytes log.side.flip = none ∨
        readSlot file'.bytes log.side.flip = readSlot file.bytes log.side.flip) :
      Lasting J file' log state

/-- One step of the file's life after another keeps the file readable. -/
theorem Lasting.holds [LawfulJournal J] {file : Slice} {log : LogFile} {state : NodeState}
    (h : Lasting J file log state) :
    Holds file.bytes log state ∧ ∀ entry ∈ state.entries, Framable entry := by
  induction h with
  | created hentries hrun hencodable hrecord hroster hwritten =>
    exact create_holds hentries hrun hencodable hrecord hroster hwritten
  | committed _ hpublishes hstage haccepted hwalk hwritten ih =>
    obtain ⟨frontier', stand', haccepted', hwalk', hholds⟩ :=
      commit_holds ih.1 ih.2 hpublishes hstage hwritten
    rw [haccepted] at haccepted'
    cases haccepted'
    rw [hwalk] at hwalk'
    cases hwalk'
    exact hholds
  | tornFrames _ _ honly htorn ih =>
    exact ⟨ih.1.torn_append (Nat.add_le_add_left honly _) htorn, ih.2⟩
  | tornSlot _ hstage honly htorn hunread ih =>
    obtain ⟨_, stand, _, _, _, _, _, _, _, _, _, hwriteAt, _⟩ :=
      stage_ok ih.1.mirror ih.2 hstage
    have hroom := (window_kept ih.1 stand).2
    rw [← hwriteAt] at hroom
    refine ⟨(ih.1.append honly).torn_slot htorn ?_, ih.2⟩
    rwa [readSlot_append hroom]

/-- **After such a life the file is read as the last state that landed in it**, and the mirror that
is armed with it is the one that wrote it. Nothing is said of a commit that was cut short after it
replaced a counted frame; `interrupted_iff` is about those. -/
theorem lasting_load [LawfulJournal J] {file : Slice} {log : LogFile} {state : NodeState}
    (h : Lasting J file log state) : load (some file) = .ok (state, log) :=
  load_eq.mpr h.holds.1

/-! A first life with an entry it has not committed. -/

def bootState : NodeState where
  copies := SuperblockCopies.uniform 256 .joining
  roster := ["n0"]
  progress := ⟨⟨1, 0⟩, ⟨1, 0⟩, .normal, 2, 1, 1, 0, 3, none⟩
  entries := [⟨1, 0, .system .void⟩, ⟨2, 1, .system .double⟩]

def bootLog : LogFile :=
  ⟨.a, 1, bootState.roster, 1, mirrorFrom 0 bootState.entries, (frames bootState.entries).length⟩

/-- A log of these entries. -/
def logOf (entries : List LogEntry) : SegmentedLog :=
  match Journal.installSuffix (SegmentedLog.withTailCapacity 4) 1 entries with
  | .ok log => log
  | .error _ => SegmentedLog.withTailCapacity 4

theorem mem_of_get {entries : List LogEntry} {slot : Nat} {entry : LogEntry}
    (h : Journal.get (logOf entries) slot = some entry) : entry ∈ entries := by
  unfold logOf at h
  split at h
  · rename_i log hinstall
    obtain ⟨-, -, -, -, hget⟩ := LawfulJournal.installSuffix_fresh rfl hinstall
    rw [hget] at h
    exact List.mem_of_find?_eq_some h
  · obtain ⟨_, hfrontier, -⟩ := LawfulJournal.get_le h
    cases hfrontier

def replacedEntries : List LogEntry := [⟨1, 0, .system .void⟩, ⟨2, 0, .system .void⟩]

/-- The second entry replaced. -/
def replacedLog : SegmentedLog := logOf replacedEntries

/-- A third entry behind the two. -/
def grownEntries : List LogEntry :=
  [⟨1, 0, .system .void⟩, ⟨2, 1, .system .double⟩, ⟨3, 1, .system .double⟩]

def grownLog : SegmentedLog := logOf grownEntries

theorem bootState_recordable : Recordable bootState.copies bootState.progress :=
  ⟨fun _ => show 256 < u32Bound by decide, ⟨by decide, by decide⟩, ⟨by decide, by decide⟩,
    by decide, by decide, by decide, by decide, by decide⟩

theorem void_encodable {slot : Nat} (h : slot < 4) :
    (⟨slot, 0, .system .void⟩ : LogEntry).Encodable ∧
      (⟨slot, 1, .system .double⟩ : LogEntry).Encodable := by
  have hslot : slot < u64Bound := Nat.lt_trans h (by decide)
  exact ⟨⟨hslot, show 0 < u32Bound by decide, trivial⟩, hslot, show 1 < u32Bound by decide, trivial⟩

theorem grownLog_publishes : Publishes bootLog bootState.copies bootState.progress grownLog := by
  refine ⟨by decide, bootState_recordable, fun slot entry hget => ?_⟩
  have hmem := mem_of_get hget
  unfold grownEntries at hmem
  simp only [List.mem_cons, List.not_mem_nil, or_false] at hmem
  rcases hmem with rfl | rfl | rfl
  · exact (void_encodable (by decide)).1
  · exact (void_encodable (by decide)).2
  · exact (void_encodable (by decide)).2

theorem bootState_lasting : ∃ file, Lasting SegmentedLog file bootLog bootState ∧
    file.bytes.length = entriesBase + 36 := by
  obtain ⟨header, hheader, hcreate⟩ := @create_ok bootState _ _ rfl (by decide +kernel)
    (by decide +kernel)
  have hframes : (frames bootState.entries).length = 36 := by decide +kernel
  have hlength : (header ++ (List.replicate headerSize 0 ++ frames bootState.entries)).length =
      entriesBase + 36 := by
    rw [List.length_append, List.length_append, hheader, List.length_replicate, hframes,
      entriesBase]
    omega
  have hsized : (header ++ (List.replicate headerSize 0 ++ frames bootState.entries)).length <
      sliceBound := by
    rw [hlength]
    decide
  refine ⟨⟨_, hsized⟩, .created rfl ⟨rfl, rfl, trivial⟩ ?_ bootState_recordable ?_ hcreate, hlength⟩
  · exact List.forall_mem_cons.mpr ⟨(void_encodable (by decide)).1,
      List.forall_mem_cons.mpr ⟨(void_encodable (by decide)).2,
        fun _ hmem => absurd hmem List.not_mem_nil⟩⟩
  · exact ⟨by decide +kernel, by decide⟩

/-- A commit that can be computed up to its header. -/
theorem exists_staged {log : LogFile} {journal : SegmentedLog} {region writeAt : Nat}
    {entries : List DurableEntry}
    (h : ((log.stage bootState.copies bootState.progress journal).toOption.map
      fun staged => (staged.region.length, staged.writeAt, staged.entries)) =
      some (region, writeAt, entries)) :
    ∃ staged, log.stage bootState.copies bootState.progress journal = .ok staged ∧
      staged.region.length = region ∧ staged.writeAt = writeAt ∧ staged.entries = entries := by
  obtain ⟨staged, hstaged, heq⟩ := Option.map_eq_some_iff.mp h
  cases hstage : log.stage bootState.copies bootState.progress journal with
  | error error =>
    rw [hstage] at hstaged
    cases hstaged
  | ok found =>
    rw [hstage] at hstaged
    cases hstaged
    cases heq
    exact ⟨_, rfl, rfl, rfl, rfl⟩

/-- One entry more goes behind the two that are held. -/
theorem grownLog_staged :
    ∃ staged, bootLog.stage bootState.copies bootState.progress grownLog = .ok staged ∧
      staged.region.length = 18 ∧ staged.writeAt = 36 ∧
      staged.entries = mirrorFrom 0 grownEntries :=
  exists_staged (by decide +kernel)

theorem boot_append_length {file : Slice} {staged : Staged}
    (hlength : file.bytes.length = entriesBase + 36) (hwriteAt : staged.writeAt ≤ 36)
    (hregion : staged.region.length = 18) :
    entriesBase + staged.writeAt ≤ file.bytes.length ∧
      (staged.append file.bytes).length ≤ entriesBase + 54 := by
  have hroom : entriesBase + staged.writeAt ≤ file.bytes.length := by omega
  have hgrown : (put file.bytes _ staged.region).length ≤ _ := put_length_le hroom
  rw [← append_eq hroom, hregion] at hgrown
  exact ⟨hroom, by omega⟩

/-- The commit of the third entry, landed in the file of the first life. -/
theorem grown_landed : ∃ (file landed : Slice) (staged : Staged),
    Lasting SegmentedLog file bootLog bootState ∧
      bootLog.stage bootState.copies bootState.progress grownLog = .ok staged ∧
      (staged.writeAt = 36 ∧ staged.region.length = 18 ∧
        staged.entries = mirrorFrom 0 grownEntries) ∧
      landed.bytes = staged.land bootLog file.bytes ∧
      landed.bytes.length ≤ entriesBase + 54 + headerSize := by
  obtain ⟨file, hlasting, hlength⟩ := bootState_lasting
  obtain ⟨staged, hstage, hregion, hwriteAt, hentries⟩ := grownLog_staged
  obtain ⟨hroom, hgrown⟩ := boot_append_length hlength (by omega) hregion
  have hheader := header_length hlasting.holds.1.mirror hlasting.holds.2 hstage
  have hslots : headerSize ≤ (staged.append file.bytes).length := by
    have hfile : _ ≤ (put file.bytes _ staged.region).length := (le_put_length hroom).1
    rw [← append_eq hroom, hlength, entriesBase] at hfile
    omega
  have hlanded : (staged.land bootLog file.bytes).length ≤ _ := put_length_le hslots
  have hbound := Nat.le_trans hlanded (Nat.add_le_add hgrown (Nat.le_of_eq hheader))
  exact ⟨file, ⟨_, Nat.lt_of_le_of_lt hbound (by decide)⟩, staged, hlasting, hstage,
    ⟨hwriteAt, hregion, hentries⟩, rfl, hbound⟩

theorem grownLog_standing : standing bootLog grownLog bootState.progress.committed
    (min (bootLog.base + bootLog.entries.length - 1) 3)
    (min (bootLog.base + bootLog.entries.length - 1) 3) = .ok 2 := by
  decide +kernel

/-- And a fourth. -/
def furtherLog : SegmentedLog := logOf (grownEntries ++ [⟨4, 1, .system .double⟩])

/-- A commit lands, the next is cut short in its frame, and the file is read again. -/
theorem lasting_load_first : ∃ (file landed torn : Slice) (staged again : Staged),
    bootLog.stage bootState.copies bootState.progress grownLog = .ok staged ∧
    landed.bytes = staged.land bootLog file.bytes ∧
    (bootLog.committed staged).stage bootState.copies bootState.progress furtherLog = .ok again ∧
    torn.bytes = put landed.bytes (entriesBase + again.writeAt) (again.region.take 5) ∧
    load (some torn) = .ok (⟨bootState.copies, bootState.roster, bootState.progress,
      durableAfter 1 grownLog 2 3 bootState.entries⟩, bootLog.committed staged) := by
  obtain ⟨file, landed, staged, hlasting, hstage, ⟨hwriteAt, hregion, hentries⟩, hwritten, hbound⟩ :=
    grown_landed
  have hcommitted : bootLog.committed staged =
      ⟨.b, 2, bootState.roster, 1, mirrorFrom 0 grownEntries, 54⟩ := by
    rw [LogFile.committed, Staged.cursor, hwriteAt, hregion, hentries]
    rfl
  have hlanded : Lasting SegmentedLog landed (bootLog.committed staged) ⟨bootState.copies,
      bootState.roster, bootState.progress, durableAfter 1 grownLog 2 3 bootState.entries⟩ :=
    hlasting.committed grownLog_publishes hstage rfl grownLog_standing hwritten
  obtain ⟨again, hagain, hregion', hwriteAt', -⟩ :=
    @exists_staged ⟨.b, 2, bootState.roster, 1, mirrorFrom 0 grownEntries, 54⟩ furtherLog 18 54
      (mirrorFrom 0 (grownEntries ++ [⟨4, 1, .system .double⟩])) (by decide +kernel)
  rw [← hcommitted] at hagain
  have hholds := hlanded.holds.1
  have hroom := le_of_window (show entriesBase ≤ landed.bytes.length from hholds.sized)
    (hholds.bytes ▸ hholds.stands)
  have hbytes : (bootLog.committed staged).bytes = 54 := by rw [hcommitted]
  rw [← hholds.bytes, hbytes, ← hwriteAt'] at hroom
  have hput : (put landed.bytes (entriesBase + again.writeAt) (again.region.take 5)).length ≤ _ :=
    put_length_le hroom
  have hpart : (again.region.take 5).length = 5 := by
    rw [List.length_take, hregion']
    decide
  have hsized := Nat.lt_of_le_of_lt (Nat.le_trans hput (Nat.add_le_add hbound hpart.le))
    (show entriesBase + 54 + headerSize + 5 < sliceBound by decide)
  have htear := torn_put hroom (again.region.take 5)
  rw [hpart] at htear
  refine ⟨file, landed, ⟨_, hsized⟩, staged, again, hstage, hwritten, hagain, rfl,
    lasting_load (hlanded.tornFrames hagain (by rw [hbytes, hwriteAt']) ⟨htear.grown, ?_⟩)⟩
  exact fun i hi => htear.outside i (by omega)

/-- **A commit cut short before its slot landed**, on a file of such a life, falls back to the state
before it exactly if it replaced no frame. -/
theorem interrupted_iff [LawfulJournal J] {file file' : Slice} {state : NodeState}
    {copies : SuperblockCopies} {progress : PersistedProgress} {staged : Staged}
    (hlasting : Lasting J file log state) (hpublishes : Publishes log copies progress journal)
    (hstage : log.stage copies progress journal = .ok staged)
    (htorn : Torn (staged.append file.bytes) log.side.flip.pos headerSize file'.bytes)
    (hunread : readSlot file'.bytes log.side.flip = none ∨
      readSlot file'.bytes log.side.flip = readSlot file.bytes log.side.flip) :
    load (some file') = .ok (state, log) ↔ staged.region = [] ∨ staged.writeAt = log.bytes := by
  obtain ⟨h, hframable⟩ := hlasting.holds
  obtain ⟨frontier, stand, added, hfrontier, -, hstanding, hbelow, hlength, hadded, hall, hentries,
    hwriteAt, hregion, hencode⟩ := stage_ok h.mirror hframable hstage
  have hroom := (window_kept h stand).2
  rw [← hwriteAt] at hroom
  rw [load_eq]
  constructor
  · intro hfallback
    by_contra hreplaced
    push Not at hreplaced
    obtain ⟨hsome, hshort⟩ := hreplaced
    have hflip := (flip_pos log.side.flip).1
    have hstart : entriesBase ≤ file'.bytes.length := hfallback.sized
    -- the frames of the commit stand in the region
    obtain ⟨hstands, -⟩ := append_stands h hwriteAt hregion
    rw [← htorn.window (Or.inr hflip), Staged.cursor, hwriteAt, hregion, ← List.length_append,
      ← frames_append, frames_append, window_append hstart] at hstands
    obtain ⟨hkept, hadds⟩ := hstands
    have hpos := le_of_window hstart hkept
    -- and so do those that the older slot counts
    have hcounted := hfallback.stands
    rw [h.bytes, ← List.take_append_drop (stand + 1 - log.base) state.entries, frames_append,
      window_append hstart] at hcounted
    have hrest := hcounted.2
    cases hadd : added with
    | nil =>
      rw [hadd] at hregion
      exact hsome hregion
    | cons entry others =>
      cases hdrop : state.entries.drop (stand + 1 - log.base) with
      | nil =>
        have hall := List.take_append_drop (stand + 1 - log.base) state.entries
        rw [hdrop, List.append_nil] at hall
        rw [keptEntries, hall, ← h.bytes] at hwriteAt
        exact hshort hwriteAt
      | cons old rest =>
        rw [hadd, frames_cons, window_append hpos] at hadds
        rw [hdrop, frames_cons] at hrest
        have hrest := ((window_append hpos).mp hrest).1
        have hmemOld : old ∈ state.entries := List.mem_of_mem_drop (hdrop ▸ List.mem_cons_self)
        obtain ⟨hrun, hcount, hget⟩ := contiguousFrom_of_held (hadd ▸ hadded)
        have hentry := hget entry List.mem_cons_self
        have hframe := framable_packedLen (hall entry (hadd ▸ List.mem_cons_self))
        have hsame : old = entry := frameBytes_unique hpos (h.valid old hmemOld)
          ⟨hpublishes.encodable _ _ hentry, hframe⟩ hrest hadds.1
        rw [hrun.1] at hentry
        -- the walk stopped there for a difference
        have hold : state.entries[stand + 1 - log.base]? = some old := by
          have hzero := congrArg (fun xs : List LogEntry => xs[0]?) hdrop
          simp only [List.getElem?_drop, List.getElem?_cons_zero, Nat.add_zero] at hzero
          exact hzero
        have hdigest : log.digestAt (stand + 1) = some (digestOf entry) := by
          rw [LogFile.digestAt, h.mirror, mirrorFrom_getElem?, hold, hsame]
          rfl
        have hdrops := congrArg List.length hdrop
        rw [List.length_drop, List.length_cons] at hdrops
        rw [List.length_cons] at hcount
        have hmirror : log.entries.length = state.entries.length := by
          rw [h.mirror, mirrorFrom_length]
        rcases (standing_spec (Nat.le_refl _) hstanding).2.2 with htop | ⟨-, -, hmiss⟩
        · omega
        · exact hmiss ⟨entry, hentry, hdigest⟩
  · intro honly
    refine (h.append honly).torn_slot htorn ?_
    rwa [readSlot_append hroom]

theorem interrupted_iff_replaced :
    ∃ file staged, ∃ file' : Slice, load (some file) = .ok (bootState, bootLog) ∧
      bootLog.stage bootState.copies bootState.progress replacedLog = .ok staged ∧
      file'.bytes = staged.append file.bytes ∧ load (some file') ≠ .ok (bootState, bootLog) := by
  obtain ⟨file, hlasting, hlength⟩ := bootState_lasting
  obtain ⟨staged, hstage, hregion, hwriteAt, -⟩ :=
    @exists_staged bootLog replacedLog 18 18 (mirrorFrom 0 replacedEntries) (by decide +kernel)
  have hpublishes : Publishes bootLog bootState.copies bootState.progress replacedLog := by
    refine ⟨by decide, bootState_recordable, fun slot entry hget => ?_⟩
    rcases List.mem_pair.mp (mem_of_get hget) with rfl | rfl
    · exact (void_encodable (by decide)).1
    · exact (void_encodable (by decide)).1
  obtain ⟨hroom, hgrown⟩ := boot_append_length hlength (by omega) hregion
  have hsized : (staged.append file.bytes).length < sliceBound :=
    Nat.lt_of_le_of_lt hgrown (by decide)
  refine ⟨file, staged, ⟨_, hsized⟩, load_eq.mpr hlasting.holds.1, hstage, rfl, fun hload => ?_⟩
  have hcond := (interrupted_iff hlasting hpublishes hstage (Torn.refl _ _ _)
    (Or.inr (readSlot_append hroom _))).mp hload
  rcases hcond with hnil | hend
  · rw [hnil] at hregion
    cases hregion
  · have hbytes : bootLog.bytes = 36 := by decide +kernel
    omega

/-! ### The mirror and the journal -/

/-- The entries a journal retains. -/
def retainedEntries (journal : J) (base frontier : Nat) : List LogEntry :=
  (List.range' base (frontier + 1 - base)).filterMap (Journal.get journal)

theorem filterMap_range' {get : Nat → Option LogEntry} {slot count : Nat}
    (h : ∀ i < count, (get (slot + i)).isSome) (i : Nat) :
    ((List.range' slot count).filterMap get)[i]? = if i < count then get (slot + i) else none := by
  induction count generalizing slot i with
  | zero => rfl
  | succ count ih =>
    obtain ⟨entry, hentry⟩ := Option.isSome_iff_exists.mp (h 0 (Nat.succ_pos _))
    rw [Nat.add_zero] at hentry
    have hrest : ∀ j < count, (get (slot + 1 + j)).isSome := by
      intro j hj
      have := h (j + 1) (by omega)
      rwa [show slot + (j + 1) = slot + 1 + j by omega] at this
    rw [List.range'_succ, List.filterMap_cons_some hentry]
    cases i with
    | zero => rw [List.getElem?_cons_zero, if_pos (Nat.succ_pos _), Nat.add_zero, hentry]
    | succ i =>
      rw [List.getElem?_cons_succ, ih hrest, show slot + 1 + i = slot + (i + 1) by omega]
      by_cases hi : i < count
      · rw [if_pos hi, if_pos (Nat.succ_lt_succ hi)]
      · rw [if_neg hi, if_neg (by omega)]

/-- The kept entries are the journal's exactly if they agree one by one. -/
theorem durableAfter_eq {base stand frontier : Nat} {entries : List LogEntry}
    (hbase : base ≤ stand + 1) (hfrontier : stand ≤ frontier)
    (hheld : ∀ slot, base ≤ slot → slot ≤ stand → (Journal.get journal slot).isSome) :
    durableAfter base journal stand frontier entries = retainedEntries journal base frontier ↔
      ∀ slot, base ≤ slot → slot ≤ stand → entries[slot - base]? = Journal.get journal slot := by
  have hsplit : List.range' base (frontier + 1 - base) =
      List.range' base (stand + 1 - base) ++ List.range' (stand + 1) (frontier - stand) := by
    have happend := @List.range'_append_1 base (stand + 1 - base) (frontier - stand)
    rw [show base + (stand + 1 - base) = stand + 1 by omega,
      show stand + 1 - base + (frontier - stand) = frontier + 1 - base by omega] at happend
    exact happend.symm
  have hheld' : ∀ i < stand + 1 - base, (Journal.get journal (base + i)).isSome :=
    fun i hi => hheld _ (by omega) (by omega)
  rw [durableAfter, retainedEntries, hsplit, List.filterMap_append, List.append_cancel_right_eq,
    keptEntries, List.ext_getElem?_iff]
  simp only [filterMap_range' hheld', List.getElem?_take]
  constructor
  · intro h slot hlo hhi
    have hslot := h (slot - base)
    rw [if_pos (by omega), if_pos (by omega), Nat.add_sub_cancel' hlo] at hslot
    exact hslot
  · intro h i
    by_cases hi : i < stand + 1 - base
    · have hslot := h (base + i) (Nat.le_add_right _ _) (by omega)
      rw [Nat.add_sub_cancel_left] at hslot
      rw [if_pos hi, if_pos hi, hslot]
    · rw [if_neg hi, if_neg hi]

/-- **What a commit leaves on a file of such a life is the journal** exactly if no durable entry
differs from it where the walk does not look: at the base, and up to the committed frontier that the
transition publishes. -/
theorem mirrors_iff [LawfulJournal J] {file landed : Slice} {state : NodeState}
    {copies : SuperblockCopies} {progress : PersistedProgress} {staged : Staged} {frontier : Nat}
    (h : Lasting J file log state) (hpublishes : Publishes log copies progress journal)
    (hstage : log.stage copies progress journal = .ok staged)
    (haccepted : Journal.accepted journal = some frontier)
    (hwritten : landed.bytes = staged.land log file.bytes)
    (hdistinct : ∀ slot entry old, Journal.get journal slot = some entry →
      state.entries[slot - log.base]? = some old → digestOf entry = digestOf old → entry = old) :
    load (some landed) = .ok (⟨copies, state.roster, progress,
        retainedEntries journal log.base frontier⟩, log.committed staged) ↔
      ∀ slot, log.base ≤ slot →
        slot ≤ min (log.base + log.entries.length - 1) frontier →
        slot ≤ max progress.committed log.base →
        state.entries[slot - log.base]? = Journal.get journal slot := by
  obtain ⟨hholds, hframable⟩ := h.holds
  obtain ⟨frontier', stand, added, haccepted', hretained, hwalk, hbelow, -⟩ :=
    stage_ok hholds.mirror hframable hstage
  rw [haccepted] at haccepted'
  cases haccepted'
  obtain ⟨hstand, hpassed, hstop⟩ := standing_spec (Nat.le_refl _) hwalk
  have hload := load_eq.mpr (h.committed hpublishes hstage haccepted hwalk hwritten).holds.1
  have hmirror : log.entries.length = state.entries.length := by
    rw [hholds.mirror, mirrorFrom_length]
  have hheld : ∀ slot, log.base ≤ slot → slot ≤ stand → (Journal.get journal slot).isSome :=
    fun slot hlo hhi => LawfulJournal.get_isSome haccepted (hretained ▸ hlo) (by omega)
  have hstate : load (some landed) = .ok (⟨copies, state.roster, progress,
      retainedEntries journal log.base frontier⟩, log.committed staged) ↔
      durableAfter log.base journal stand frontier state.entries =
        retainedEntries journal log.base frontier := by
    rw [hload]
    constructor
    · intro heq
      exact congrArg (fun read => read.1.entries) (Except.ok.inj heq)
    · intro heq
      rw [heq]
  rw [hstate, durableAfter_eq hbelow (by omega) hheld]
  constructor
  · intro hall slot hlo hhi hcommitted
    exact hall slot hlo (by omega)
  · intro hall slot hlo hhi
    by_cases hcommitted : slot ≤ max progress.committed log.base
    · exact hall slot hlo (by omega) hcommitted
    · -- the walk passed this slot, so the digests agree
      obtain ⟨entry, hget, hdigest⟩ := hpassed slot (by omega) (by omega) hhi
      rw [LogFile.digestAt, hholds.mirror, mirrorFrom_getElem?] at hdigest
      obtain ⟨old, hold, heq⟩ := Option.map_eq_some_iff.mp hdigest
      rw [hold, hget, hdistinct slot entry old hget hold heq.symm]

theorem mirrors_iff_grown :
    ∃ landed log, load (some landed) = .ok (⟨bootState.copies, bootState.roster,
      bootState.progress, retainedEntries grownLog 1 3⟩, log) := by
  obtain ⟨file, landed, staged, hlasting, hstage, -, hwritten, -⟩ := grown_landed
  have hmem : ∀ slot entry, Journal.get grownLog slot = some entry →
      entry = ⟨1, 0, .system .void⟩ ∨ entry = ⟨2, 1, .system .double⟩ ∨
        entry = ⟨3, 1, .system .double⟩ := by
    intro slot entry hget
    have hmem := mem_of_get hget
    simpa only [grownEntries, List.mem_cons, List.not_mem_nil, or_false] using hmem
  have hagree : ∀ slot, bootLog.base ≤ slot →
      slot ≤ min (bootLog.base + bootLog.entries.length - 1) 3 →
      slot ≤ max bootState.progress.committed bootLog.base →
      bootState.entries[slot - bootLog.base]? = Journal.get grownLog slot := by
    intro slot hlo _ hhi
    have hslot : slot = 1 := Nat.le_antisymm hhi hlo
    rw [hslot]
    rfl
  refine ⟨landed, _,
    (mirrors_iff hlasting grownLog_publishes hstage rfl hwritten ?_).mpr hagree⟩
  intro slot entry old hget hold _
  have hslot := LawfulJournal.get_slot hget
  rcases hmem slot entry hget with rfl | rfl | rfl
  all_goals
    rw [← hslot] at hold
    cases hold
  all_goals rfl

/-! ### A commit tried again -/

/-- The mirror behind a commit that failed on the disk: its entries were renewed before. -/
def LogFile.abandoned (log : LogFile) (staged : Staged) : LogFile :=
  { log with entries := staged.entries }

theorem digestAt_eq {entries : List LogEntry} (hmirror : log.entries = mirrorFrom 0 entries)
    (slot : Nat) : log.digestAt slot = entries[slot - log.base]?.map digestOf := by
  rw [LogFile.digestAt, hmirror, mirrorFrom_getElem?]

/-- Behind a commit that failed, the mirror matches the journal wherever a walk looks. -/
theorem abandoned_matches [LawfulJournal J] {copies : SuperblockCopies}
    {progress : PersistedProgress} {staged : Staged} {entries : List LogEntry} {frontier : Nat}
    (hmirror : log.entries = mirrorFrom 0 entries)
    (hframable : ∀ entry ∈ entries, Framable entry)
    (hstage : log.stage copies progress journal = .ok staged)
    (haccepted : Journal.accepted journal = some frontier) {slot : Nat}
    (hlo : max progress.committed log.base < slot) (hhi : slot ≤ frontier) :
    Matches (log.abandoned staged) journal slot := by
  obtain ⟨frontier', stand, added, haccepted', -, hwalk, hbelow, hlength, hadded, -, hentries, -⟩ :=
    stage_ok hmirror hframable hstage
  rw [haccepted] at haccepted'
  cases haccepted'
  have hkept : (keptEntries log.base stand entries).length = stand + 1 - log.base :=
    List.length_take_of_le hlength
  have hdigest := @digestAt_eq (log.abandoned staged) _ hentries slot
  change (log.abandoned staged).digestAt slot = Option.map digestOf
    (keptEntries log.base stand entries ++ added)[slot - log.base]? at hdigest
  unfold Matches
  rw [hdigest]
  by_cases hstand : slot ≤ stand
  · -- a kept slot: the first walk passed it
    obtain ⟨hle, hpassed, -⟩ := standing_spec (Nat.le_refl _) hwalk
    obtain ⟨entry, hget, hold⟩ := hpassed slot hlo (by omega) hstand
    rw [digestAt_eq hmirror] at hold
    rw [List.getElem?_append_left (by omega), keptEntries, List.getElem?_take_of_lt (by omega)]
    exact ⟨entry, hget, hold⟩
  · -- a slot of the journal itself
    obtain ⟨hrun, hcount, hget⟩ := contiguousFrom_of_held hadded
    have hin : slot - (stand + 1) < added.length := by omega
    have hslot := (ContiguousFrom.entryAt_eq hrun slot).symm
    rw [if_neg (by omega), List.getElem?_eq_getElem hin] at hslot
    have hentry := hget _ (List.getElem_mem hin)
    rw [entryAt_slot hslot.symm] at hentry
    rw [List.getElem?_append_right (by omega), hkept,
      show slot - log.base - (stand + 1 - log.base) = slot - (stand + 1) by omega,
      List.getElem?_eq_getElem hin]
    exact ⟨_, hentry, rfl⟩

/-- **A commit that failed on the disk and is tried again** writes no frame any more: it leaves the
state that it is to leave exactly if the frames had landed the first time. -/
theorem retried_iff [LawfulJournal J] {file file' landed : Slice} {state : NodeState}
    {copies copies' : SuperblockCopies} {progress progress' : PersistedProgress}
    {staged again : Staged} {frontier stand : Nat}
    (hlasting : Lasting J file log state) (hpublishes : Publishes log copies' progress' journal)
    (hstage : log.stage copies progress journal = .ok staged)
    (haccepted : Journal.accepted journal = some frontier)
    (hwalk : standing log journal progress.committed
      (min (log.base + log.entries.length - 1) frontier)
      (min (log.base + log.entries.length - 1) frontier) = .ok stand)
    (htorn : Torn file.bytes (entriesBase + staged.writeAt) staged.region.length file'.bytes)
    (hcommitted : progress.committed ≤ progress'.committed)
    (hagain : (log.abandoned staged).stage copies' progress' journal = .ok again)
    (hwritten : landed.bytes = again.land log file'.bytes) :
    again.region = [] ∧
      (load (some landed) = .ok (⟨copies', state.roster, progress',
          durableAfter log.base journal stand frontier state.entries⟩,
          (log.abandoned staged).committed again) ↔
        window file'.bytes (entriesBase + staged.writeAt) staged.region.length = staged.region) := by
  obtain ⟨h, hframable⟩ := hlasting.holds
  obtain ⟨frontier', stand', added, haccepted', hretained, hwalk', hbelow, hlength, hadded, hall,
    hentries, hwriteAt, hregion, -⟩ := stage_ok h.mirror hframable hstage
  rw [haccepted] at haccepted'
  cases haccepted'
  rw [hwalk] at hwalk'
  cases hwalk'
  obtain ⟨hrun, hvalid⟩ := staged_run h.run (fun entry hmem => (h.valid entry hmem).1) hframable
    hpublishes.encodable hbelow hlength hadded hall
  obtain ⟨frontier', stand', added', haccepted', -, hwalk', -, -, hadded', -, hentries', hwriteAt',
    hregion', hencode'⟩ := @stage_ok _ _ (log.abandoned staged) journal _ _ _ _ hentries
      (fun entry hmem => (hvalid entry hmem).2) hagain
  rw [haccepted] at haccepted'
  cases haccepted'
  have hkept : (keptEntries log.base stand state.entries).length = stand + 1 - log.base :=
    List.length_take_of_le hlength
  obtain ⟨-, hcount, -⟩ := contiguousFrom_of_held hadded
  have hle := (standing_spec (Nat.le_refl _) hwalk).1
  have hmirror : (log.abandoned staged).entries.length = frontier + 1 - log.base := by
    change staged.entries.length = _
    rw [hentries, mirrorFrom_length, List.length_append, hkept, hcount]
    omega
  -- the walk finds nothing that differs, so all of the mirror stands
  have hstand' : stand' = frontier := by
    rcases (standing_spec (Nat.le_refl _) hwalk').2.2 with htop | ⟨hlo, hhi, hmiss⟩
    · rw [htop, hmirror]
      change min (log.base + (frontier + 1 - log.base) - 1) frontier = frontier
      omega
    · change max progress'.committed log.base ≤ stand' at hlo
      exact absurd (abandoned_matches h.mirror hframable hstage haccepted
        (show max progress.committed log.base < stand' + 1 by omega) (by omega)) hmiss
  have hnone : added' = [] := by
    have hlength' := (contiguousFrom_of_held hadded').2.1
    rw [hstand', Nat.sub_self] at hlength'
    exact List.length_eq_zero_iff.mp hlength'
  subst hnone hstand'
  have hall' : keptEntries (log.abandoned staged).base stand'
      (keptEntries log.base stand state.entries ++ added) =
      keptEntries log.base stand state.entries ++ added := by
    refine List.take_of_length_le ?_
    change _ ≤ stand' + 1 - log.base
    rw [List.length_append, hkept, hcount]
    omega
  rw [hall'] at hwriteAt' hentries'
  rw [List.append_nil] at hentries'
  have hnone : again.region = [] := hregion'
  have hcursor : again.cursor =
      (frames (keptEntries log.base stand state.entries ++ added)).length := by
    rw [Staged.cursor, hwriteAt', hnone, List.length_nil, Nat.add_zero]
  have hsized : entriesBase ≤ file'.bytes.length := Nat.le_trans h.sized htorn.grown
  have hlanded : landed.bytes = put file'.bytes log.side.flip.pos again.header := by
    rw [hwritten, Staged.land, Staged.append, if_pos hnone]
  have hheader := @header_length _ _ (log.abandoned staged) journal _ _ _ _ hentries
    (fun entry hmem => (hvalid entry hmem).2) hagain
  have hflip := (flip_pos log.side.flip).1
  refine ⟨hnone, ?_⟩
  rw [load_eq, durableAfter, added_eq hadded, hwriteAt, hregion]
  constructor
  · intro hholds
    have hstands : window landed.bytes entriesBase again.cursor =
        frames (keptEntries log.base stand state.entries ++ added) := hholds.stands
    rw [hlanded, window_put_after (by omega) (by omega), hcursor, frames_append,
      window_append hsized] at hstands
    exact hstands.2
  · intro hlandedFrames
    have hkeptFrames := (window_kept h stand).1
    rw [← htorn.window (Or.inl (by rw [hwriteAt]))] at hkeptFrames
    have hstands := (window_append hsized).mpr ⟨hkeptFrames, hlandedFrames⟩
    rw [← frames_append, ← hcursor] at hstands
    have hslot : readSlot file'.bytes log.side = some (log.slot state.copies state.progress) := by
      have hside := (flip_pos log.side).1
      rw [← h.active, readSlot, htorn.window (Or.inl (by omega))]
      rfl
    obtain ⟨hrange, hlawful⟩ := active_slot h
    have hland := @land_holds _ _ (log.abandoned staged) journal _ _ _ _ _ _ _ hsized hslot rfl
      hlawful hrange.base ⟨hpublishes.seq, hpublishes.record, hpublishes.encodable⟩ hencode' hlanded
      hrun hvalid hentries' hcursor hstands
    rw [← h.roster]
    exact hland

theorem retried_iff_lost :
    ∃ file : Slice, ∃ staged again, ∃ landed : Slice, ∃ log,
      bootLog.stage bootState.copies bootState.progress grownLog = .ok staged ∧
      (bootLog.abandoned staged).stage bootState.copies bootState.progress grownLog = .ok again ∧
      landed.bytes = again.land bootLog file.bytes ∧
      load (some landed) ≠ .ok (⟨bootState.copies, bootState.roster, bootState.progress,
        durableAfter 1 grownLog 2 3 bootState.entries⟩, log) := by
  obtain ⟨file, hlasting, hlength⟩ := bootState_lasting
  obtain ⟨staged, hstage, hregion, hwriteAt, hentries⟩ := grownLog_staged
  have habandoned : bootLog.abandoned staged =
      { bootLog with entries := mirrorFrom 0 grownEntries } := by
    rw [LogFile.abandoned, hentries]
  obtain ⟨again, hagain, hregion', hwriteAt', -⟩ :=
    @exists_staged { bootLog with entries := mirrorFrom 0 grownEntries } grownLog 0 54
      (mirrorFrom 0 grownEntries) (by decide +kernel)
  rw [← habandoned] at hagain
  have hheader := @header_length _ _ (bootLog.abandoned staged) grownLog _ _ _ grownEntries hentries
    (by decide +kernel) hagain
  have hslots : headerSize ≤ file.bytes.length := by
    rw [hlength, entriesBase]
    omega
  have hsized : (again.land bootLog file.bytes).length < sliceBound := by
    have hlanded : (put file.bytes bootLog.side.flip.pos again.header).length ≤ _ :=
      put_length_le hslots
    rw [Staged.land, Staged.append, if_pos (List.length_eq_zero_iff.mp hregion')]
    rw [hlength, hheader] at hlanded
    exact Nat.lt_of_le_of_lt hlanded (by decide)
  refine ⟨file, staged, again, ⟨_, hsized⟩, (bootLog.abandoned staged).committed again, hstage,
    hagain, rfl, fun hload => ?_⟩
  have hstood := (retried_iff hlasting grownLog_publishes hstage rfl grownLog_standing (Torn.refl _ _ _)
    (Nat.le_refl _) hagain rfl).2.mp hload
  have hshort := congrArg List.length hstood
  rw [hregion, window, List.length_take, List.length_drop, hlength, hwriteAt] at hshort
  omega

end

end Maelstrom

end UvrrCore
