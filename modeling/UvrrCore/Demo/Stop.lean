import UvrrCore.Demo.Node
import UvrrCore.Demo.State
import UvrrCore.StagedFiles
import UvrrCore.TextLines

/-!
# Stops and boots of the demo

The boot fence is a file with one word, the state file the lock table's snapshot; both are replaced
by staged writes. A stop writes "stopped", flushes the table and writes "flushed" over it; a boot
that reads "flushed" may load the table, and every other boot takes the last life for a crash.

`Reached` is every sequence of lives: anchors, requests, stops, any of them with a fault at any
access to the disk, and crashes that lose what was not forced.

## Main results

* `Reached.clean`: where the clean word can be read, the state file holds the snapshot that was
  flushed last, whole.
* `stop_then_crash`: which crashes behind a stop boot clean, and on which table.
-/

namespace UvrrCore

namespace Demo

open Locks (Service StateSnapshot Request)
open StagedFiles
open TextLines (Text isWhitespace utf8 fromUtf8 fromUtf8_utf8)

/-! ### Files -/

structure Path where
  parent : Text
  fileName : Text
deriving DecidableEq

/-- The staging name: the process, and a draw of its counter. -/
def temporary (path : Path) (pid seq : Nat) : Path where
  parent := path.parent
  fileName := ('.' :: path.fileName) ++ "-tmp-".toList ++ Nat.toDigits 10 pid ++
    ('-' :: Nat.toDigits 10 seq)

/-- The state file of a node's state path. -/
def stateFilePath (state : Path) : Path :=
  { state with fileName := state.fileName ++ ".state".toList }

/-- **Where a node keeps its two files**: neither is a staging name of the other. -/
structure Mount where
  fence : Path
  node : Path
  fence_ne : fence ≠ stateFilePath node
  fence_apart : ∀ pid seq, temporary (stateFilePath node) pid seq ≠ fence

def Mount.state (m : Mount) : Path := stateFilePath m.node

/-- The disk, the process and its staging counter. -/
structure Host where
  disk : Disk Path
  pid : Nat
  seq : Nat

def Host.writeAtomically (h : Host) (path : Path) (bytes : List UInt8) (fates : Fates) :
    Host × Ending :=
  let staged := stage Path.parent h.disk (temporary path h.pid h.seq) path bytes fates
  ({ h with disk := staged.1, seq := h.seq + 1 }, staged.2)

/-! ### The fence -/

namespace FenceWord

def asStr : FenceWord → String
  | stopping => "stopping"
  | stopped => "stopped"
  | flushed => "flushed"

def ofStr (word : Text) : Option FenceWord :=
  if word = "stopping".toList then some stopping
  else if word = "stopped".toList then some stopped
  else if word = "flushed".toList then some flushed
  else none

/-- The file is the word, one line. -/
def line (word : FenceWord) : List UInt8 := utf8 word.asStr ++ [10]

end FenceWord

def trim (text : Text) : Text :=
  ((text.dropWhile isWhitespace).reverse.dropWhile isWhitespace).reverse

/-- What the fence did not write reads as the unproven word. -/
def fenceWord (bytes : List UInt8) : FenceWord :=
  ((fromUtf8 bytes).bind fun text => FenceWord.ofStr (trim text.toList)).getD .stopping

def readFence (m : Mount) (d : Disk Path) : Option FenceWord := (d.read m.fence).map fenceWord

def writeFence (m : Mount) (h : Host) (word : FenceWord) (fates : Fates) : Host × Ending :=
  h.writeAtomically m.fence word.line fates

/-! ### The state store -/

/-- A table that does not frame reaches no disk. -/
def flush (json : SnapshotJson) (m : Mount) (h : Host) (snap : StateSnapshot) (fates : Fates) :
    Host × Ending :=
  match json.frame snap with
  | .error _ => (h, .failed)
  | .ok framed => h.writeAtomically m.state framed fates

def load (json : SnapshotJson) (m : Mount) (d : Disk Path) : Option StateSnapshot :=
  (d.read m.state).bind json.unframe

/-- A boot that is not clean reads nothing, nor does one with something in its table. -/
def lazyLoad (json : SnapshotJson) (m : Mount) (d : Disk Path) (cleanBoot tableEmpty : Bool) :
    Option StateSnapshot :=
  if cleanBoot = false then none
  else if tableEmpty = false then none
  else load json m d

/-- The table a life has at its first apply. -/
def materialiseState (json : SnapshotJson) (m : Mount) (d : Disk Path) (cleanBoot : Bool)
    (locks : Service) : Service :=
  match lazyLoad json m d cleanBoot locks.isEmpty with
  | some snapshot => locks.restore snapshot
  | none => locks

/-! ### A stop -/

/-- The step of a stop that did not complete. -/
inductive StopStep where
  /-- "the halt's fence word did not land" -/
  | halt
  /-- "the eager state flush failed" -/
  | flush
  /-- "the clean word did not land" -/
  | clean
deriving DecidableEq

inductive StopEnd where
  | stopped
  | refused (step : StopStep)
  /-- A crash cut it short. -/
  | cut (step : StopStep)
deriving DecidableEq

namespace StopEnd

def ofEnding (step : StopStep) : Ending → StopEnd
  | .cut => cut step
  | _ => refused step

/-- The flush came through. -/
def flushed : StopEnd → Bool
  | stopped | refused .clean | cut .clean => true
  | _ => false

end StopEnd

/-- **The graceful stop.** -/
def stop (json : SnapshotJson) (m : Mount) (h : Host) (locks : Service)
    (fates : StopStep → Fates) : Host × StopEnd :=
  match writeFence m h .stopped (fates .halt) with
  | (h, .done) =>
    match flush json m h locks.snapshot (fates .flush) with
    | (h, .done) =>
      match writeFence m h .flushed (fates .clean) with
      | (h, .done) => (h, .stopped)
      | (h, ending) => (h, .ofEnding .clean ending)
    | (h, ending) => (h, .ofEnding .flush ending)
  | (h, ending) => (h, .ofEnding .halt ending)

/-! ### What the files hold -/

theorem temporary_ne (path : Path) (pid seq : Nat) : temporary path pid seq ≠ path := by
  intro heq
  have hlen := congrArg (fun p => p.fileName.length) heq
  simp only [temporary, List.length_append, List.length_cons] at hlen
  omega

/-- A staging name ends in a digit. -/
theorem temporary_ne_state (path node : Path) (pid seq : Nat) :
    temporary path pid seq ≠ stateFilePath node := by
  intro heq
  have hlast := congrArg (fun p => p.fileName.getLast?) heq
  have hne : Nat.toDigits 10 seq ≠ [] := Nat.toDigits_ne_nil
  have hdigits : ('-' :: Nat.toDigits 10 seq).getLast? =
      some ((Nat.toDigits 10 seq).getLast hne) := by
    rw [List.getLast?_cons_of_ne_nil hne, List.getLast?_eq_some_getLast hne]
  simp only [temporary, stateFilePath, List.getLast?_append, hdigits] at hlast
  have hdigit := Nat.isDigit_of_mem_toDigits (by decide) (by decide) (List.getLast_mem hne)
  rw [show (Nat.toDigits 10 seq).getLast hne = 'e' from by simpa using hlast] at hdigit
  exact absurd hdigit (by decide)

theorem FenceWord.line_eq (word : FenceWord) : word.line = utf8 (word.asStr ++ "\n") := by
  cases word
  all_goals decide

theorem fenceWord_line (word : FenceWord) : fenceWord word.line = word := by
  rw [fenceWord, FenceWord.line_eq, fromUtf8_utf8]
  cases word
  all_goals decide

section

variable {json : SnapshotJson} {m : Mount} {h h' : Host} {d d' : Disk Path} {word : FenceWord}
  {snap : StateSnapshot} {flushed : Option StateSnapshot} {fates : Fates} {ending : Ending}

/-- The file of a fence with this word. -/
def FenceWord.file (word : FenceWord) : Option File := some ⟨word.line, true⟩

theorem FenceWord.file_solid (word : FenceWord) : Solid word.file := by
  intro file hfile
  cases hfile
  rfl

/-- The file of a flushed snapshot. -/
def Framing (json : SnapshotJson) (snap : StateSnapshot) (version : Option File) : Prop :=
  ∃ framed, json.frame snap = .ok framed ∧ version = some ⟨framed, true⟩

/-- **What stands on the disk between any two actions.** A version of the fence is a word; where
one is the clean word, every version of the state file is the snapshot flushed last. -/
structure Vouched (json : SnapshotJson) (m : Mount) (d : Disk Path)
    (flushed : Option StateSnapshot) : Prop where
  fence : ∀ version ∈ d.versions m.fence, version = none ∨ ∃ word : FenceWord, version = word.file
  state : ∀ version ∈ d.versions m.state, Solid version
  clean : FenceWord.flushed.file ∈ d.versions m.fence → ∃ snap, flushed = some snap ∧
    ∀ version ∈ d.versions m.state, Framing json snap version

theorem writeFence_spec (hwrite : writeFence m h word fates = (h', ending)) :
    Landing h.disk m.fence word.line (h'.disk, ending) ∧ Kept h.disk h'.disk m.state := by
  have hspec := @stage_spec _ _ _ _ Path.parent h.disk _ _ word.line fates
    (temporary_ne m.fence h.pid h.seq)
  obtain ⟨hlanding, hkept⟩ := hspec
  cases hwrite
  exact ⟨hlanding, hkept m.state (temporary_ne_state _ _ _ _).symm m.fence_ne.symm⟩

theorem flush_spec (hflush : flush json m h snap fates = (h', ending)) :
    Kept h.disk h'.disk m.fence ∧
      ((h' = h ∧ ending = .failed) ∨ ∃ framed, json.frame snap = .ok framed ∧
        Landing h.disk m.state framed (h'.disk, ending)) := by
  unfold flush at hflush
  split at hflush
  · cases hflush
    exact ⟨Kept.refl, .inl ⟨rfl, rfl⟩⟩
  · rename_i framed hframe
    have hspec := @stage_spec _ _ _ _ Path.parent h.disk _ _ framed fates
      (temporary_ne m.state h.pid h.seq)
    obtain ⟨hlanding, hkept⟩ := hspec
    cases hflush
    exact ⟨hkept m.fence (m.fence_apart _ _).symm m.fence_ne, .inr ⟨framed, hframe, hlanding⟩⟩

theorem file_ne (hword : word ≠ .flushed) : FenceWord.flushed.file ≠ word.file := by
  cases word with
  | stopping | stopped => decide
  | flushed => exact absurd rfl hword

/-- A word written over the fence. -/
theorem Vouched.fence_landing (hv : Vouched json m d flushed)
    (hlanding : Landing d m.fence word.line (d', ending)) :
    ∀ version ∈ d'.versions m.fence, version = none ∨ ∃ word : FenceWord, version = word.file := by
  intro version hmem
  rcases hlanding.whole version hmem with hold | hnew
  · exact hv.fence version hold
  · exact .inr ⟨word, hnew⟩

/-- **A word that is not the clean one**: it vouches for nothing. -/
theorem Vouched.writes (hv : Vouched json m h.disk flushed) (hword : word ≠ .flushed)
    (hwrite : writeFence m h word fates = (h', ending)) : Vouched json m h'.disk flushed := by
  obtain ⟨hlanding, hkept⟩ := writeFence_spec hwrite
  refine ⟨hv.fence_landing hlanding, fun version hmem => hv.state version
    (hkept.versions version hmem), fun hclean => ?_⟩
  rcases hlanding.whole _ hclean with hold | hnew
  · obtain ⟨snap, hflushed, hframed⟩ := hv.clean hold
    exact ⟨snap, hflushed, fun version hmem => hframed version (hkept.versions version hmem)⟩
  · exact absurd hnew (file_ne hword)

/-- What a crash can read is that the halt began. -/
def Halted (m : Mount) (d : Disk Path) : Prop :=
  ∀ version ∈ d.versions m.fence, version = FenceWord.stopped.file

theorem Halted.no_clean (hhalted : Halted m d) :
    FenceWord.flushed.file ∉ d.versions m.fence :=
  fun hclean => absurd (hhalted _ hclean) (by decide)

/-- Under a halted fence the state file may change. -/
theorem Vouched.flushes (hv : Vouched json m h.disk flushed) (hhalted : Halted m h.disk)
    (hflush : flush json m h snap fates = (h', ending)) :
    Halted m h'.disk ∧ (∀ flushed', Vouched json m h'.disk flushed') ∧
      (ending = .done → ∀ version ∈ h'.disk.versions m.state, Framing json snap version) := by
  obtain ⟨hkept, hlanding⟩ := flush_spec hflush
  have hhalted' : Halted m h'.disk :=
    fun version hmem => hhalted version (hkept.versions version hmem)
  have hfence : ∀ version ∈ h'.disk.versions m.fence,
      version = none ∨ ∃ word : FenceWord, version = word.file :=
    fun version hmem => .inr ⟨.stopped, hhalted' version hmem⟩
  have hclean : ∀ flushed', FenceWord.flushed.file ∈ h'.disk.versions m.fence →
      ∃ snap, flushed' = some snap ∧
        ∀ version ∈ h'.disk.versions m.state, Framing json snap version :=
    fun _ hmem => absurd hmem hhalted'.no_clean
  rcases hlanding with ⟨rfl, rfl⟩ | ⟨framed, hframe, hlanding⟩
  · exact ⟨hhalted', fun _ => ⟨hfence, hv.state, hclean _⟩, by simp⟩
  · refine ⟨hhalted', fun _ => ⟨hfence, fun version hmem => ?_, hclean _⟩,
      fun hdone version hmem => ?_⟩
    · rcases hlanding.whole version hmem with hold | rfl
      · exact hv.state version hold
      · intro file hfile
        cases hfile
        rfl
    · rw [hlanding.landed hdone] at hmem
      exact ⟨framed, hframe, List.mem_singleton.mp hmem⟩

/-- The clean word over a flushed table. -/
theorem Vouched.vouches (hv : Vouched json m h.disk flushed)
    (hflushed : ∀ version ∈ h.disk.versions m.state, Framing json snap version)
    (hwrite : writeFence m h .flushed fates = (h', ending)) :
    Vouched json m h'.disk (some snap) ∧
      (∀ version ∈ h'.disk.versions m.state, Framing json snap version) ∧
      (ending = .done → h'.disk.versions m.fence = [FenceWord.flushed.file]) := by
  obtain ⟨hlanding, hkept⟩ := writeFence_spec hwrite
  have hstate : ∀ version ∈ h'.disk.versions m.state, Framing json snap version :=
    fun version hmem => hflushed version (hkept.versions version hmem)
  exact ⟨⟨hv.fence_landing hlanding, fun version hmem => hv.state version
    (hkept.versions version hmem), fun _ => ⟨snap, rfl, hstate⟩⟩, hstate, hlanding.landed⟩

/-- **What a stop leaves**, wherever it ended. -/
structure StopSpec (json : SnapshotJson) (m : Mount) (flushed : Option StateSnapshot)
    (locks : Service) (d : Disk Path) (ending : StopEnd) : Prop where
  vouched : Vouched json m d (if ending.flushed then some locks.snapshot else flushed)
  stopped : ending = .stopped → d.versions m.fence = [FenceWord.flushed.file]
  /-- The table is on the disk from its flush on. -/
  flushed : ending.flushed → ∀ version ∈ d.versions m.state, Framing json locks.snapshot version
  /-- Nothing is clean while it flushes. -/
  flushing : ending = .refused .flush ∨ ending = .cut .flush → Halted m d

theorem Vouched.stop (hv : Vouched json m h.disk flushed) {locks : Service}
    {fates : StopStep → Fates} {stopEnd : StopEnd}
    (hstop : stop json m h locks fates = (h', stopEnd)) :
    StopSpec json m flushed locks h'.disk stopEnd := by
  unfold Demo.stop at hstop
  split at hstop
  · rename_i h₁ hhalt
    have v₁ := hv.writes (by decide) hhalt
    have hhalted : Halted m h₁.disk := by
      intro version hmem
      rw [(writeFence_spec hhalt).1.landed rfl] at hmem
      exact List.mem_singleton.mp hmem
    split at hstop
    · rename_i h₂ hflush
      obtain ⟨-, v₂, hflushed⟩ := v₁.flushes hhalted hflush
      split at hstop
      · rename_i h₃ hclean
        obtain ⟨v₃, hstate, hfence⟩ := (v₂ none).vouches (hflushed rfl) hclean
        cases hstop
        exact ⟨v₃, fun _ => hfence rfl, fun _ => hstate, by simp⟩
      · rename_i h₃ ending hne hclean
        obtain ⟨v₃, hstate, -⟩ := (v₂ none).vouches (hflushed rfl) hclean
        cases ending with
        | done => exact (hne rfl).elim
        | failed | cut =>
          cases hstop
          exact ⟨v₃, by simp [StopEnd.ofEnding], fun _ => hstate, by simp [StopEnd.ofEnding]⟩
    · rename_i h₂ ending hne hflush
      obtain ⟨hhalted', v₂, -⟩ := v₁.flushes hhalted hflush
      cases ending with
      | done => exact (hne rfl).elim
      | failed | cut =>
        cases hstop
        exact ⟨v₂ _, by simp [StopEnd.ofEnding], by simp [StopEnd.ofEnding, StopEnd.flushed],
          fun _ => hhalted'⟩
  · rename_i h₁ ending hne hhalt
    have v₁ := hv.writes (by decide) hhalt
    cases ending with
    | done => exact (hne rfl).elim
    | failed | cut =>
      cases hstop
      exact ⟨v₁, by simp [StopEnd.ofEnding], by simp [StopEnd.ofEnding, StopEnd.flushed],
        by simp [StopEnd.ofEnding]⟩

theorem Vouched.crashes (hv : Vouched json m d flushed) (hcrash : Crashed d d') :
    Vouched json m d' flushed := by
  have hsolid : ∀ version ∈ d.versions m.fence, Solid version := by
    intro version hmem file hfile
    rcases hv.fence version hmem with rfl | ⟨word, rfl⟩
    · cases hfile
    · exact word.file_solid file hfile
  obtain ⟨word, hword, hfence⟩ := hcrash.versions hsolid
  obtain ⟨state, hstate, hstate'⟩ := hcrash.versions hv.state
  refine ⟨fun version hmem => ?_, fun version hmem => ?_, fun hclean => ?_⟩
  · rw [hfence] at hmem
    exact hv.fence version (List.mem_singleton.mp hmem ▸ hword)
  · rw [hstate'] at hmem
    exact hv.state version (List.mem_singleton.mp hmem ▸ hstate)
  · rw [hfence] at hclean
    obtain ⟨snap, hflushed, hframed⟩ := hv.clean (List.mem_singleton.mp hclean ▸ hword)
    refine ⟨snap, hflushed, fun version hmem => ?_⟩
    rw [hstate'] at hmem
    exact hframed version (List.mem_singleton.mp hmem ▸ hstate)

theorem readFence_eq (hv : Vouched json m d flushed) (hread : readFence m d = some word) :
    d.entry m.fence = word.file := by
  have hentry := hv.fence (d.entry m.fence) List.mem_cons_self
  unfold readFence Disk.read at hread
  rcases hentry with hnone | ⟨word', hword⟩
  · rw [hnone] at hread
    cases hread
  · rw [hword] at hread ⊢
    simp only [FenceWord.file, Option.map_some, fenceWord_line, Option.some_inj] at hread
    rw [hread]

theorem readFence_of_entry (h : d.entry m.fence = word.file) : readFence m d = some word := by
  rw [readFence, Disk.read, h, FenceWord.file, Option.map_some, Option.map_some, fenceWord_line]

/-- A crash of a fence that holds one word alone. -/
theorem readFence_crashed (hword : ∀ version ∈ d.versions m.fence, version = word.file)
    (hcrash : Crashed d d') : readFence m d' = some word := by
  obtain ⟨version, hmem, hleft⟩ := hcrash.left m.fence
  rw [hword version hmem] at hleft
  exact readFence_of_entry (hleft.eq word.file_solid)

theorem load_eq (hreads : json.Reads) (hframed : Framing json snap (d.entry m.state)) :
    load json m d = some snap := by
  obtain ⟨framed, hframe, hentry⟩ := hframed
  obtain ⟨payload, hwrites, hfits, rfl⟩ := SnapshotJson.frame_eq_ok_iff.mp hframe
  rw [load, Disk.read, hentry]
  exact SnapshotJson.unframe_eq_some_iff.mpr ⟨payload, hfits, rfl, hreads _ _ hwrites⟩

theorem materialiseState_clean (hload : load json m d = some snap) :
    materialiseState json m d true Service.empty = Service.empty.restore snap := by
  have hlazy : lazyLoad json m d true Service.empty.isEmpty = some snap := hload
  rw [materialiseState, hlazy]

/-- What a clean boot finds. -/
theorem Vouched.loads (hreads : json.Reads) (hv : Vouched json m d flushed)
    (hclean : readFence m d = some .flushed) :
    ∃ snap, flushed = some snap ∧ load json m d = some snap := by
  obtain ⟨snap, hflushed, hframed⟩ :=
    hv.clean (readFence_eq hv hclean ▸ List.mem_cons_self)
  exact ⟨snap, hflushed, load_eq hreads (hframed _ List.mem_cons_self)⟩

/-! ### Lives -/

/-- The host, the table of the life that runs on it, and the snapshot that was flushed last, which
nothing reads. -/
structure Lives where
  host : Host
  running : Option Service
  flushed : Option StateSnapshot

/-- **Every sequence of lives**, on a disk that was blank once. -/
inductive Reached (json : SnapshotJson) (m : Mount) : Lives → Prop
  | blank (pid : Nat) : Reached json m ⟨⟨Disk.empty, pid, 0⟩, none, none⟩
  /-- A first life, which writes the anchor or does not start. -/
  | first {l : Lives} {h : Host} {ending : Ending} (fates : Fates) (before : Reached json m l)
      (down : l.running = none) (anchors : writeFence m l.host .stopping fates = (h, ending)) :
      Reached json m ⟨h, if ending = .done then some Service.empty else none, l.flushed⟩
  /-- The life after a crash, which writes nothing. -/
  | reincarnate {l : Lives} (before : Reached json m l) (down : l.running = none)
      (crashed : readFence m l.host.disk ≠ some .flushed) :
      Reached json m { l with running := some Service.empty }
  | apply {l : Lives} {locks : Service} (clock : Nat) (request : Request)
      (before : Reached json m l) (running : l.running = some locks) :
      Reached json m { l with running := some (locks.executeRequest clock request).1 }
  /-- A stop. The node runs on until its process ends. -/
  | stop {l : Lives} {locks : Service} {h : Host} {ending : StopEnd} (fates : StopStep → Fates)
      (before : Reached json m l) (running : l.running = some locks)
      (stops : Demo.stop json m l.host locks fates = (h, ending)) :
      Reached json m ⟨h, some locks, if ending.flushed then some locks.snapshot else l.flushed⟩
  /-- The process ends, the disk stays as it is. -/
  | exits {l : Lives} (pid : Nat) (before : Reached json m l) :
      Reached json m { l with host := ⟨l.host.disk, pid, 0⟩, running := none }
  | crashes {l : Lives} {d : Disk Path} (pid : Nat) (before : Reached json m l)
      (crashed : Crashed l.host.disk d) :
      Reached json m { l with host := ⟨d, pid, 0⟩, running := none }

theorem Reached.vouched {l : Lives} (hreached : Reached json m l) :
    Vouched json m l.host.disk l.flushed := by
  induction hreached with
  | blank pid =>
    refine ⟨fun version hmem => .inl (List.mem_singleton.mp hmem), fun version hmem file hfile => ?_,
      fun hclean => absurd (List.mem_singleton.mp hclean) (Option.some_ne_none _)⟩
    rw [List.mem_singleton.mp hmem] at hfile
    cases hfile
  | first fates _ _ anchors ih => exact ih.writes (by decide) anchors
  | reincarnate _ _ _ ih => exact ih
  | apply clock request _ _ ih => exact ih
  | stop fates _ _ stops ih => exact (ih.stop stops).vouched
  | exits pid _ ih => exact ih
  | crashes pid _ crashed ih => exact ih.crashes crashed

/-- A node that keeps both files beside each other. -/
def besideMount : Mount where
  fence := ⟨"node".toList, "fence".toList⟩
  node := ⟨"node".toList, "log".toList⟩
  fence_ne := by decide
  fence_apart pid seq heq := by
    have hfirst : some '.' = some 'f' := congrArg (fun p => p.fileName.head?) heq
    exact absurd hfirst (by decide)

/-- A first life on a blank disk. -/
def firstHost : Host :=
  (writeFence besideMount ⟨Disk.empty, 7, 0⟩ .stopping Fates.fine).1

/-- In it a client takes a lock. -/
theorem firstHost_reached :
    Reached leasedJson besideMount ⟨firstHost, some leasedTable, none⟩ :=
  have hfirst : Reached leasedJson besideMount ⟨firstHost, some Service.empty, none⟩ :=
    .first Fates.fine (.blank 7) rfl rfl
  hfirst.apply 3 (.set firstClient 4 10) rfl

/-- A fault of the last write after its renaming: the stop is refused, and a boot is clean. -/
def unsettled : StopStep → Fates
  | .clean => { Fates.fine with settle := .failed 0 }
  | _ => Fates.fine

/-- **The clean word vouches.** However the lives before went, where a boot reads the clean word it
loads the snapshot that was flushed last, whole. -/
theorem clean_loads (hreads : json.Reads) {l : Lives} (hreached : Reached json m l)
    (hclean : readFence m l.host.disk = some .flushed) :
    ∃ snap, l.flushed = some snap ∧
      materialiseState json m l.host.disk true Service.empty = Service.empty.restore snap := by
  obtain ⟨snap, hflushed, hload⟩ := hreached.vouched.loads hreads hclean
  exact ⟨snap, hflushed, materialiseState_clean hload⟩

/-- What that stop of the first life leaves. -/
def unsettledHost : Host :=
  (Demo.stop leasedJson besideMount firstHost leasedTable unsettled).1

theorem unsettledHost_stop : Demo.stop leasedJson besideMount firstHost leasedTable unsettled =
    (unsettledHost, .refused .clean) :=
  Prod.ext rfl (by decide +kernel)

theorem unsettledHost_clean : readFence besideMount unsettledHost.disk.settled = some .flushed := by
  decide +kernel

/-- The first life stops so and the power fails. -/
theorem clean_loads_unsettled :
    ∃ snap, some leasedTable.snapshot = some snap ∧
      materialiseState leasedJson besideMount unsettledHost.disk.settled true Service.empty =
        Service.empty.restore snap :=
  clean_loads leasedJson_reads (.crashes 8 (.stop unsettled firstHost_reached rfl
    unsettledHost_stop) (crashed_settled _)) unsettledHost_clean

/-- **A crash behind a stop.** A stop that completed boots clean; one that ended in its flush never
does; and from the flush on, a boot that is clean has the table of this stop. -/
theorem stop_then_crash (hreads : json.Reads) {l : Lives} (hreached : Reached json m l)
    {locks : Service} {fates : StopStep → Fates} {stopEnd : StopEnd}
    (hstop : Demo.stop json m l.host locks fates = (h', stopEnd)) (hcrash : Crashed h'.disk d) :
    (stopEnd = .stopped → readFence m d = some .flushed) ∧
      (stopEnd = .refused .flush ∨ stopEnd = .cut .flush → readFence m d = some .stopped) ∧
      (stopEnd.flushed → readFence m d = some .flushed →
        materialiseState json m d true Service.empty = locks) := by
  have hspec := hreached.vouched.stop hstop
  have hvouched := hspec.vouched.crashes hcrash
  refine ⟨fun hstopped => readFence_crashed (fun version hmem => ?_) hcrash,
    fun hflushing => readFence_crashed (hspec.flushing hflushing) hcrash,
    fun hflushed hclean => ?_⟩
  · rw [hspec.stopped hstopped] at hmem
    exact List.mem_singleton.mp hmem
  · rw [if_pos hflushed] at hvouched
    obtain ⟨snap, hsnap, hload⟩ := hvouched.loads hreads hclean
    rw [materialiseState_clean hload, ← Option.some.inj hsnap]
    rfl

theorem stop_then_crash_unsettled :
    readFence besideMount unsettledHost.disk.settled = some .flushed ∧
      materialiseState leasedJson besideMount unsettledHost.disk.settled true Service.empty =
        leasedTable := by
  obtain ⟨-, -, htable⟩ := stop_then_crash leasedJson_reads firstHost_reached
    unsettledHost_stop (crashed_settled _)
  exact ⟨unsettledHost_clean, htable rfl unsettledHost_clean⟩

end

end Demo

end UvrrCore
