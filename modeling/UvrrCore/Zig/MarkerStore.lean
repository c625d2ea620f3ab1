import UvrrCore.Zig.Membership
import UvrrCore.Zig.Superblock
import Mathlib.Data.Nat.Pairing

/-!
# The marker store

Each copy of the superblock header carries a marker. A boot reads the four copies, takes a vote of
the markers over the working copyset, and writes a new copyset: `restarting` under the same
incarnation behind a clean stop, `joining` under the next one otherwise. A stop writes two, and
the second says `stopped`.

* `classify` is the vote and `restart` its consequence. `stageOpen` is a boot as far as its write.
* `FileStep` drives one data file through boots and stops. A write lands on all four copies, or the
  process dies in it with a copy left old, new or torn (`Cut`).
* `DataFile.Sound` is the invariant: the whole copies descend, each is the parent of what stands one
  sequence number above it, and two headers of one number are only there beside a pair below them.
-/

namespace UvrrCore.Zig

open Grouping

/-! ### The vote -/

/-- The markers. An unnamed byte is read and never written. -/
inductive Marker where
  | stopping
  | stopped
  | restarting
  | joining
  | unnamed (byte : Nat)
deriving DecidableEq, Repr

def Marker.ofByte : Nat → Marker
  | 0 => .stopping
  | 1 => .stopped
  | 2 => .restarting
  | 3 => .joining
  | byte => .unnamed byte

def Marker.toByte : Marker → Nat
  | .stopping => 0
  | .stopped => 1
  | .restarting => 2
  | .joining => 3
  | .unnamed byte => byte

structure CopyState where
  identity : Nat
  marker : Marker
deriving DecidableEq, Repr

/-- The copies of the working copyset. The others do not vote. -/
abbrev CohortView := List (Option CopyState)

/-- The copies of one identity: how many there are and how many are stopped. -/
structure Cohort where
  identity : Nat
  count : Nat
  stopped : Nat
deriving DecidableEq, Repr

inductive RestartClass where
  | stopped
  | notStopped
deriving DecidableEq, Repr

structure Verdict where
  restartClass : RestartClass
  identity : Nat
deriving DecidableEq, Repr

namespace Cohort

def scheme : Scheme CopyState Cohort Nat where
  key copy := copy.identity
  groupKey cohort := cohort.identity
  opened copy := ⟨copy.identity, 1, if copy.marker = .stopped then 1 else 0⟩
  joined cohort copy :=
    ⟨cohort.identity, cohort.count + 1,
      cohort.stopped + if copy.marker = .stopped then 1 else 0⟩
  opened_key _ := rfl
  joined_key _ _ := rfl

/-- The first among the highest identities that have a quorum, from the cohort found so far on. -/
def winner : Option Cohort → List Cohort → Option Cohort
  | best, [] => best
  | best, cohort :: cohorts =>
    if cohort.count < openThreshold then winner best cohorts
    else
      match best with
      | none => winner (some cohort) cohorts
      | some leader =>
        if leader.identity < cohort.identity then winner (some cohort) cohorts
        else winner (some leader) cohorts

end Cohort

/-- **The quorum read.** -/
def classify (view : CohortView) : Option Verdict :=
  match Cohort.winner none (Cohort.scheme.group (view.filterMap id)) with
  | none => none
  | some w => some ⟨if openThreshold ≤ w.stopped then .stopped else .notStopped, w.identity⟩

inductive RestartDecision where
  | continued (identity : Nat)
  | bumped (old new : Nat)
deriving DecidableEq, Repr

namespace RestartDecision

/-- The identity that the quorum resolved. -/
def identity : RestartDecision → Nat
  | .continued identity => identity
  | .bumped old _ => old

/-- The identity that the node goes on under. -/
def incarnation : RestartDecision → Nat
  | .continued identity => identity
  | .bumped _ new => new

def marker : RestartDecision → Marker
  | .continued _ => .restarting
  | .bumped _ _ => .joining

end RestartDecision

/-- Why a boot does not come to its write: the copies, the last identity, or a sequence number whose
successor is none. The last one is the overflow of an addition and ends the process. -/
inductive OpenError where
  | quorum (error : QuorumError)
  | identityExhausted
  | sequenceOverflow
deriving DecidableEq, Repr

def restart (view : CohortView) : Except OpenError RestartDecision :=
  match classify view with
  | none => .error (.quorum .quorumLost)
  | some ⟨.stopped, identity⟩ => .ok (.continued identity)
  | some ⟨.notStopped, identity⟩ =>
    if identity + 1 < u64Bound then .ok (.bumped identity (identity + 1))
    else .error .identityExhausted

/-! ### A boot and a stop, as far as their writes -/

namespace SuperBlockHeader

/-- The next copyset: the next sequence number, and the checksum of this one as its parent. -/
def advance (digest : Covered → Nat) (header : SuperBlockHeader) (incarnation : Nat)
    (marker : Marker) : SuperBlockHeader :=
  have covered : Covered :=
    { header.covered with
      sequence := header.covered.sequence + 1
      parent := header.checksum
      incarnation := incarnation }
  ⟨digest covered, header.copy, covered, marker.toByte⟩

/-- A header as it is written to a slot, or read from it. -/
def stamp (header : SuperBlockHeader) (slot : Nat) : SuperBlockHeader :=
  { header with copy := slot }

end SuperBlockHeader

/-- The copies as a boot reads them: each with the number of its slot. -/
def readCopies (copies : List SuperBlockHeader) : List SuperBlockHeader :=
  copies.mapIdx fun slot copy => copy.stamp slot

/-- The copies of the working sequence number, with their markers. -/
def cohortView (digest : Covered → Nat) (sequence : Nat) (copies : List SuperBlockHeader) :
    CohortView :=
  copies.map fun copy =>
    if copy.validChecksum digest && copy.covered.sequence == sequence then
      some ⟨copy.covered.incarnation, .ofByte copy.marker⟩
    else none

/-- A boot as far as its write: the header it is going to write, and what it decided. -/
def stageOpen (digest : Covered → Nat) (copies : List SuperBlockHeader) :
    Except OpenError (SuperBlockHeader × RestartDecision) :=
  match Quorums.working digest (readCopies copies) with
  | .error error => .error (.quorum error)
  | .ok working =>
    match restart (cohortView digest working.header.covered.sequence (readCopies copies)) with
    | .error error => .error error
    | .ok decision =>
      if working.header.covered.sequence + 1 < u64Bound then
        .ok (working.header.advance digest decision.incarnation decision.marker, decision)
      else .error .sequenceOverflow

/-- The two halves of a stop. -/
inductive Stop where
  | begin
  | finish
deriving DecidableEq, Repr

def Stop.marker : Stop → Marker
  | .begin => .stopping
  | .finish => .stopped

/-- A marker transition as far as its write. The addition overflows behind the last number. -/
def advanceMarker (digest : Covered → Nat) (working : SuperBlockHeader) (stop : Stop) :
    Option SuperBlockHeader :=
  if working.covered.sequence + 1 < u64Bound then
    some (working.advance digest working.covered.incarnation stop.marker)
  else none

/-- The first copies of a header, as they are written one after the other. -/
def written (header : SuperBlockHeader) (count : Nat) : List SuperBlockHeader :=
  (List.range count).map header.stamp

/-! ### Histories of one data file -/

/-- What `open` returns. -/
structure Info where
  identity : Nat
  incarnation : Nat
  marker : Marker
  memberCount : Nat
deriving DecidableEq, Repr

/-- What a crash in a write leaves of the copy it was at. -/
inductive Left where
  | old
  | new
  | torn
deriving DecidableEq, Repr

inductive FileEvent where
  | opened (info : Info)
  | refused (error : OpenError)
  | stopped (stop : Stop)
  /-- The process ends, outside of a write. -/
  | died
  /-- The process ends in the write of a boot. -/
  | cutOpen (left : Left)
  /-- The process ends in a write of a stop. -/
  | cutStop (stop : Stop) (left : Left)
deriving DecidableEq, Repr

/-- The data file, the working header of the process that has it open, and the events so far, the
last one first. -/
structure DataFile where
  copies : List SuperBlockHeader
  zones : Zones
  working : Option SuperBlockHeader
  trace : List FileEvent

/-- A write of four copies that ends at one of them. -/
inductive Cut (digest : Covered → Nat) (header : SuperBlockHeader) :
    List SuperBlockHeader → Left → List SuperBlockHeader → Prop where
  | old {front back : List SuperBlockHeader} {copy : SuperBlockHeader} :
      Cut digest header (front ++ copy :: back) .old (written header front.length ++ copy :: back)
  | new {front back : List SuperBlockHeader} {copy : SuperBlockHeader} :
      Cut digest header (front ++ copy :: back) .new
        (written header front.length ++ header.stamp front.length :: back)
  | torn {front back : List SuperBlockHeader} {copy left : SuperBlockHeader}
      (hleft : left.validChecksum digest = false) :
      Cut digest header (front ++ copy :: back) .torn
        (written header front.length ++ left :: back)

/-- The checksums of the three formats. -/
structure FileDigests where
  header : Covered → Nat
  membership : Digests

/-- A formatted data file: four copies of the first header, `stopped`, and no members. -/
def DataFile.format (digests : FileDigests) (cluster incarnation : Nat) (vsrState : VSRState) :
    DataFile :=
  have covered : Covered := ⟨0, cluster, 0, vsrState, incarnation⟩
  have header : SuperBlockHeader := ⟨digests.header covered, 0, covered, Marker.stopped.toByte⟩
  { copies := written header superblockCopies
    zones := (Node.format digests.membership 0).zones
    working := some header
    trace := [] }

/-- A boot: what it writes and what it returns. The membership is read behind the write. -/
def DataFile.opens (digests : FileDigests) (f : DataFile) :
    Except OpenError (SuperBlockHeader × Info) :=
  match stageOpen digests.header f.copies with
  | .error error => .error error
  | .ok (header, decision) =>
    match f.zones.load digests.membership with
    | .error _ => .error (.quorum .quorumLost)
    | .ok rep =>
      .ok (header, ⟨decision.identity, decision.incarnation, decision.marker,
        rep.state.members.length⟩)

/-- One step. A store that is open may be opened again. An overflow is one way to die. -/
inductive FileStep (digests : FileDigests) : DataFile → DataFile → Prop where
  | opened {f : DataFile} {header : SuperBlockHeader} {info : Info}
      (hopens : f.opens digests = .ok (header, info)) :
      FileStep digests f
        { f with
          copies := written header superblockCopies
          working := some header
          trace := .opened info :: f.trace }
  | refused {f : DataFile} {error : OpenError}
      (hstage : stageOpen digests.header f.copies = .error error)
      (hreturns : error ≠ .sequenceOverflow) :
      FileStep digests f { f with trace := .refused error :: f.trace }
  | unloaded {f : DataFile} {header : SuperBlockHeader} {decision : RestartDecision}
      {error : LoadError} (hstage : stageOpen digests.header f.copies = .ok (header, decision))
      (hload : f.zones.load digests.membership = .error error) :
      FileStep digests f
        { f with
          copies := written header superblockCopies
          working := some header
          trace := .refused (.quorum .quorumLost) :: f.trace }
  | stopped {f : DataFile} {working header : SuperBlockHeader} {stop : Stop}
      (hworking : f.working = some working)
      (hadvance : advanceMarker digests.header working stop = some header) :
      FileStep digests f
        { f with
          copies := written header superblockCopies
          working := some header
          trace := .stopped stop :: f.trace }
  | died {f : DataFile} : FileStep digests f { f with working := none, trace := .died :: f.trace }
  | cutOpen {f : DataFile} {header : SuperBlockHeader} {decision : RestartDecision} {left : Left}
      {copies : List SuperBlockHeader}
      (hstage : stageOpen digests.header f.copies = .ok (header, decision))
      (hcut : Cut digests.header header f.copies left copies) :
      FileStep digests f
        { f with copies := copies, working := none, trace := .cutOpen left :: f.trace }
  | cutStop {f : DataFile} {working header : SuperBlockHeader} {stop : Stop} {left : Left}
      {copies : List SuperBlockHeader} (hworking : f.working = some working)
      (hadvance : advanceMarker digests.header working stop = some header)
      (hcut : Cut digests.header header f.copies left copies) :
      FileStep digests f
        { f with copies := copies, working := none, trace := .cutStop stop left :: f.trace }

inductive FileRun (digests : FileDigests) (start : DataFile) : DataFile → Prop where
  | start : FileRun digests start start
  | step {f f' : DataFile} (h : FileRun digests start f) (hstep : FileStep digests f f') :
      FileRun digests start f'

/-! ### What a trace says -/

namespace FileEvent

/-- The calls that came to their end. -/
def returned : FileEvent → Bool
  | .opened _ | .stopped _ => true
  | _ => false

def isOpened : FileEvent → Bool
  | .opened _ => true
  | _ => false

def isCut : FileEvent → Bool
  | .cutOpen _ | .cutStop _ _ => true
  | _ => false

/-- A call of the second half of a stop, whether it returned or not. -/
def finishes : FileEvent → Bool
  | .stopped .finish | .cutStop .finish _ => true
  | _ => false

end FileEvent

/-- The writes that were cut since the last call that returned. -/
def cuts (trace : List FileEvent) : Nat :=
  (trace.takeWhile fun event => !event.returned).countP FileEvent.isCut

/-- A stop came to its second half since the last boot that returned. -/
def finishCalled (trace : List FileEvent) : Bool :=
  (trace.takeWhile fun event => !event.isOpened).any FileEvent.finishes

/-- The first half of a stop returned since the last boot that returned. -/
def stopBegun (trace : List FileEvent) : Bool :=
  (trace.takeWhile fun event => !event.isOpened).contains (.stopped .begin)

/-- A stop came to its second half behind its first since the last boot that returned. -/
def stopCalled : List FileEvent → Bool
  | [] => false
  | event :: trace => !event.isOpened && ((event.finishes && stopBegun trace) || stopCalled trace)

/-- Each second half of a stop is called behind its first. Nothing checks it. -/
def Orderly : List FileEvent → Prop
  | [] => True
  | event :: trace => (event.finishes = true → stopBegun trace = true) ∧ Orderly trace

/-- No call has returned since the file was formatted. -/
def onlyFormatted (trace : List FileEvent) : Bool := trace.all fun event => !event.returned

/-- The incarnation that the last boot returned, or the formatted one. -/
def lastIncarnation (formatted : Nat) : List FileEvent → Nat
  | [] => formatted
  | .opened info :: _ => info.incarnation
  | _ :: trace => lastIncarnation formatted trace

/-- The marker that the last call that returned has written. -/
def lastMarker : List FileEvent → Marker
  | [] => .stopped
  | .opened info :: _ => info.marker
  | .stopped stop :: _ => stop.marker
  | _ :: trace => lastMarker trace

/-! ### Copies as they are read -/

namespace SuperBlockHeader

@[simp] theorem stamp_covered (header : SuperBlockHeader) (slot : Nat) :
    (header.stamp slot).covered = header.covered := rfl

end SuperBlockHeader

variable {digest : Covered → Nat} {copies : List SuperBlockHeader}

@[simp] theorem readCopies_length : (readCopies copies).length = copies.length :=
  List.length_mapIdx

/-- What does not look at the number of a slot reads the same of both. -/
theorem map_readCopies {β : Type} (g : SuperBlockHeader → β)
    (hg : ∀ header slot, g (header.stamp slot) = g header) :
    (readCopies copies).map g = copies.map g := by
  refine List.ext_getElem (by simp) fun slot _ _ => ?_
  simp only [List.getElem_map, readCopies, List.getElem_mapIdx, hg]

theorem mem_readCopies {a : SuperBlockHeader} (h : a ∈ readCopies copies) :
    ∃ copy ∈ copies, ∃ slot, a = copy.stamp slot := by
  obtain ⟨slot, hslot, rfl⟩ := List.mem_mapIdx.mp h
  exact ⟨_, List.getElem_mem hslot, slot, rfl⟩

theorem readCopies_of_mem {copy : SuperBlockHeader} (h : copy ∈ copies) :
    ∃ slot, copy.stamp slot ∈ readCopies copies := by
  obtain ⟨slot, hslot, rfl⟩ := List.getElem_of_mem h
  exact ⟨slot, List.mem_mapIdx.mpr ⟨slot, hslot, rfl⟩⟩

theorem held_readCopies (covered : Covered) :
    held digest (readCopies copies) covered = held digest copies covered := by
  have hmap : (readCopies copies).map (fun copy => copy.validChecksum digest &&
      copy.covered == covered) = copies.map fun copy => copy.validChecksum digest &&
        copy.covered == covered := map_readCopies _ fun _ _ => rfl
  have hcount : ∀ cs : List SuperBlockHeader, held digest cs covered =
      (cs.map fun copy => copy.validChecksum digest && copy.covered == covered).countP id := by
    intro cs
    rw [List.countP_map]
    rfl
  rw [hcount, hcount, hmap]

theorem stamped_readCopies (hlength : copies.length = superblockCopies) :
    Stamped (readCopies copies) := by
  refine ⟨readCopies_length.trans hlength, fun read hread => ?_⟩
  obtain ⟨index, hindex, rfl⟩ := List.getElem_of_mem hread
  rw [List.getElem_zip]
  simp [readCopies, SuperBlockHeader.stamp]

theorem Readable.read (h : Readable digest copies) : Readable digest (readCopies copies) := by
  obtain ⟨header, hmem, hvalid, hheld, hgap⟩ := h
  obtain ⟨slot, hslot⟩ := readCopies_of_mem hmem
  refine ⟨header.stamp slot, hslot, hvalid, ?_, fun a ha havalid => ?_⟩
  · rw [held_readCopies]
    exact hheld
  · obtain ⟨copy, hcopy, other, rfl⟩ := mem_readCopies ha
    exact hgap copy hcopy havalid

theorem Coherent.read (h : Coherent digest copies) : Coherent digest (readCopies copies) := by
  refine ⟨fun a ha b hb => ?_, fun a ha b hb => ?_, fun a ha b hb => ?_⟩ <;>
    obtain ⟨a, ha, -, rfl⟩ := mem_readCopies ha <;>
    obtain ⟨b, hb, -, rfl⟩ := mem_readCopies hb
  · exact h.alike a ha b hb
  · rw [held_readCopies]
    exact h.unforked a ha b hb
  · rw [held_readCopies]
    exact h.linked a ha b hb

/-! ### The vote of one copyset -/

/-- What copies of one identity count. -/
theorem Cohort.made_counts {votes : List CopyState} {cohort : Cohort}
    (h : Cohort.scheme.made votes = some cohort) :
    cohort.count = votes.length ∧
      cohort.stopped = votes.countP fun vote => decide (vote.marker = .stopped) := by
  have hone : ∀ votes : List CopyState, (votes.map fun _ => 1).sum = votes.length := by
    intro votes
    simp
  have hstopped : ∀ votes : List CopyState,
      (votes.map fun vote => if vote.marker = .stopped then 1 else 0).sum =
        votes.countP fun vote => decide (vote.marker = .stopped) := by
    intro votes
    induction votes with
    | nil => rfl
    | cons vote votes ih =>
      rw [List.map_cons, List.sum_cons, List.countP_cons, ih, Nat.add_comm]
      simp only [decide_eq_true_eq]
  constructor
  · rw [← hone]
    exact made_sum Cohort.count (fun _ => 1) (fun _ => rfl) (fun _ _ => rfl) h
  · rw [← hstopped]
    exact made_sum Cohort.stopped _ (fun _ => rfl) (fun _ _ => rfl) h

/-- Votes of one identity make one cohort. -/
theorem Cohort.group_uniform {votes : List CopyState} {identity : Nat}
    (huniform : ∀ vote ∈ votes, vote.identity = identity) (hne : votes ≠ []) :
    Cohort.scheme.group votes = [⟨identity, votes.length,
      votes.countP fun vote => decide (vote.marker = .stopped)⟩] := by
  have hgrouped := grouped_group Cohort.scheme votes
  have hmembers : ∀ key, key = identity → Cohort.scheme.members key votes = votes := by
    intro key hkey
    refine List.filter_eq_self.mpr fun vote hvote => decide_eq_true ?_
    exact (huniform vote hvote).trans hkey.symm
  have hkeys : ∀ cohort ∈ Cohort.scheme.group votes, cohort.identity = identity := by
    intro cohort hcohort
    have hmade := hgrouped.made cohort hcohort
    cases hvotes : Cohort.scheme.members (Cohort.scheme.groupKey cohort) votes with
    | nil =>
      rw [hvotes] at hmade
      cases hmade
    | cons vote rest =>
      have hmem : vote ∈ Cohort.scheme.members (Cohort.scheme.groupKey cohort) votes := by
        rw [hvotes]
        exact List.mem_cons_self
      obtain ⟨hin, hkey⟩ := List.mem_filter.mp hmem
      rw [← huniform vote hin]
      exact (of_decide_eq_true hkey).symm
  obtain ⟨first, hfirst⟩ := List.exists_mem_of_ne_nil votes hne
  obtain ⟨cohort, hcohort, -⟩ := hgrouped.covers first hfirst
  have hall : Cohort.scheme.group votes = [cohort] := by
    have hdistinct := hgrouped.distinct
    have hsame : (Cohort.scheme.group votes).map Cohort.scheme.groupKey =
        List.replicate (Cohort.scheme.group votes).length identity := by
      refine List.eq_replicate_iff.mpr ⟨List.length_map .., fun key hkey => ?_⟩
      obtain ⟨other, hother, rfl⟩ := List.mem_map.mp hkey
      exact hkeys other hother
    rw [hsame, List.nodup_replicate] at hdistinct
    have hpos := List.length_pos_of_mem hcohort
    obtain ⟨only, honly⟩ := List.length_eq_one_iff.mp (Nat.le_antisymm hdistinct hpos)
    rw [honly] at hcohort ⊢
    rw [List.mem_singleton.mp hcohort]
  have hmade := hgrouped.made cohort hcohort
  have hkey : Cohort.scheme.groupKey cohort = identity := hkeys cohort hcohort
  rw [hmembers _ hkey] at hmade
  obtain ⟨hcount, hstopped⟩ := Cohort.made_counts hmade
  rw [hall, ← hkeys cohort hcohort, ← hcount, ← hstopped]

theorem classify_uniform {view : CohortView} {identity : Nat}
    (huniform : ∀ vote ∈ view.filterMap id, vote.identity = identity)
    (hquorum : openThreshold ≤ (view.filterMap id).length) :
    classify view = some ⟨if openThreshold ≤ (view.filterMap id).countP
      fun vote => decide (vote.marker = .stopped) then .stopped else .notStopped, identity⟩ := by
  have hne : view.filterMap id ≠ [] := by
    intro hnil
    rw [hnil] at hquorum
    exact absurd hquorum (by decide)
  simp only [classify, Cohort.group_uniform huniform hne, Cohort.winner,
    if_neg (Nat.not_lt.mpr hquorum)]

/-! ### Copies that descend -/

/-- What holds of a whole copy `b` behind a whole copy `a`. -/
structure Below (digest : Covered → Nat) (copies : List SuperBlockHeader) (a b : SuperBlockHeader) :
    Prop where
  ordered : b.covered.sequence ≤ a.covered.sequence
  linked : b.covered.sequence + 1 = a.covered.sequence → digest b.covered = a.covered.parent
  paired : a.covered.sequence = b.covered.sequence → a.covered = b.covered ∨
    ∃ c : Covered, c.sequence + 1 = a.covered.sequence ∧ openThreshold ≤ held digest copies c

/-- **The shape of the copies.** They descend, each is the parent of what stands one number above
it, and two headers of one number are only there beside a pair one number below. -/
def Descends (digest : Covered → Nat) (copies : List SuperBlockHeader) : Prop :=
  copies.Pairwise fun a b => a.validChecksum digest = true → b.validChecksum digest = true →
    Below digest copies a b

/-- A relation of neighbours that holds both ways and of equals holds of any two. -/
theorem Descends.forall {R : SuperBlockHeader → SuperBlockHeader → Prop}
    (h : Descends digest copies) (hrefl : ∀ a, R a a)
    (hboth : ∀ a b, Below digest copies a b → R a b ∧ R b a) {a b : SuperBlockHeader}
    (ha : a ∈ copies) (hb : b ∈ copies) (havalid : a.validChecksum digest = true)
    (hbvalid : b.validChecksum digest = true) : R a b := by
  have hpairwise : copies.Pairwise fun a b => a.validChecksum digest = true →
      b.validChecksum digest = true → R a b ∧ R b a :=
    h.imp fun hbelow havalid hbvalid => hboth _ _ (hbelow havalid hbvalid)
  have hsymm : Std.Symm fun a b : SuperBlockHeader => a.validChecksum digest = true →
      b.validChecksum digest = true → R a b ∧ R b a :=
    ⟨fun a b hab hbvalid havalid => (hab havalid hbvalid).symm⟩
  have hall := List.Pairwise.forall_of_forall (fun a _ _ _ => ⟨hrefl a, hrefl a⟩) hpairwise
  exact (hall ha hb havalid hbvalid).1

/-- **Copies that descend are coherent**, when they are of one file. -/
theorem Descends.coherent (h : Descends digest copies) (hlength : copies.length = superblockCopies)
    (halike : ∀ a ∈ copies, ∀ b ∈ copies, a.validChecksum digest = true →
      b.validChecksum digest = true → a.covered.cluster = b.covered.cluster ∧
        a.covered.vsrState = b.covered.vsrState) : Coherent digest copies := by
  refine ⟨halike, fun a ha b hb havalid hbvalid hheld hsame => ?_,
    fun a ha b hb havalid hbvalid _ hbelow => ?_⟩
  · have hpair := h.forall
      (R := fun a b => a.covered.sequence = b.covered.sequence → a.covered = b.covered ∨
        ∃ c : Covered, c.sequence + 1 = a.covered.sequence ∧ openThreshold ≤ held digest copies c)
      (fun _ _ => Or.inl rfl)
      (fun a b hab => ⟨hab.paired, fun heq => by
        rw [heq]
        exact (hab.paired heq.symm).imp_left Eq.symm⟩) ha hb havalid hbvalid hsame
    rcases hpair with heq | ⟨c, hc, hcheld⟩
    · exact heq
    · by_contra hne
      have hca : a.covered ≠ c := fun heq => by
        rw [heq] at hc
        exact absurd hc (by omega)
      have hcb : b.covered ≠ c := fun heq => by
        rw [hsame, heq] at hc
        exact absurd hc (by omega)
      -- Two copies of `b`, one of `a` and two of the header below them are five.
      have hthree : held digest copies a.covered + held digest copies b.covered +
          held digest copies c ≤ copies.length := held_three hne hca hcb
      have hfour : copies.length = 4 := hlength
      have hone := held_pos ha havalid
      have htwo : 2 ≤ held digest copies b.covered := hheld
      have hbelow : 2 ≤ held digest copies c := hcheld
      omega
  · have hlinks := h.forall
      (R := fun a b => a.covered.sequence + 1 = b.covered.sequence →
        digest a.covered = b.covered.parent)
      (fun a ha => absurd ha (by omega))
      (fun a b hab => ⟨fun heq => absurd hab.ordered (by omega), hab.linked⟩) ha hb havalid hbvalid
    exact hlinks hbelow

/-- What a header that is going to be written must be to the copies. -/
structure Successor (digest : Covered → Nat) (copies : List SuperBlockHeader)
    (header : SuperBlockHeader) : Prop where
  whole : header.validChecksum digest = true
  newest : ∀ a ∈ copies, a.validChecksum digest = true →
    a.covered.sequence ≤ header.covered.sequence
  parent : ∀ a ∈ copies, a.validChecksum digest = true →
    a.covered.sequence + 1 = header.covered.sequence → digest a.covered = header.covered.parent
  paired : ∃ c : Covered, c.sequence + 1 = header.covered.sequence ∧
    openThreshold ≤ held digest copies c

theorem mem_written {header a : SuperBlockHeader} {count : Nat} (h : a ∈ written header count) :
    ∃ slot, a = header.stamp slot := by
  obtain ⟨slot, -, rfl⟩ := List.mem_map.mp h
  exact ⟨slot, rfl⟩

@[simp] theorem written_length (header : SuperBlockHeader) (count : Nat) :
    (written header count).length = count := by
  rw [written, List.length_map, List.length_range]

/-- A write that is cut, in one shape. -/
theorem Cut.shape {header : SuperBlockHeader} {left : Left} {copies' : List SuperBlockHeader}
    (h : Cut digest header copies left copies') :
    ∃ front copy back rest, copies = front ++ copy :: back ∧
      copies' = written header front.length ++ rest :: back ∧
      (rest = copy ∨ rest = header.stamp front.length ∨ rest.validChecksum digest = false) := by
  cases h with
  | old => exact ⟨_, _, _, _, rfl, rfl, Or.inl rfl⟩
  | new => exact ⟨_, _, _, _, rfl, rfl, Or.inr (Or.inl rfl)⟩
  | torn hleft => exact ⟨_, _, _, _, rfl, rfl, Or.inr (Or.inr hleft)⟩

theorem Cut.length {header : SuperBlockHeader} {left : Left} {copies' : List SuperBlockHeader}
    (h : Cut digest header copies left copies') : copies'.length = copies.length := by
  obtain ⟨front, copy, back, rest, rfl, rfl, -⟩ := h.shape
  simp only [List.length_append, written_length, List.length_cons]

/-- A whole copy behind a cut was there before, or is one of the header. -/
theorem Cut.mem {header : SuperBlockHeader} {left : Left} {copies' : List SuperBlockHeader}
    (h : Cut digest header copies left copies') {a : SuperBlockHeader} (ha : a ∈ copies')
    (hvalid : a.validChecksum digest = true) : a ∈ copies ∨ ∃ slot, a = header.stamp slot := by
  obtain ⟨front, copy, back, rest, rfl, rfl, hrest⟩ := h.shape
  rcases List.mem_append.mp ha with ha | ha
  · exact Or.inr (mem_written ha)
  · rcases List.mem_cons.mp ha with rfl | ha
    · rcases hrest with rfl | rfl | htorn
      · exact Or.inl (List.mem_append_right _ List.mem_cons_self)
      · exact Or.inr ⟨_, rfl⟩
      · rw [htorn] at hvalid
        cases hvalid
    · exact Or.inl (List.mem_append_right _ (List.mem_cons_of_mem _ ha))

/-- The copies of an older header stand behind every newer copy. -/
theorem Descends.held_behind {front back : List SuperBlockHeader} {copy y : SuperBlockHeader}
    {c : Covered} (h : Descends digest (front ++ copy :: back)) (hy : y ∈ copy :: back)
    (hvalid : y.validChecksum digest = true) (holder : c.sequence < y.covered.sequence) :
    held digest (front ++ copy :: back) c = held digest back c := by
  obtain ⟨-, hrest, hfront⟩ := List.pairwise_append.mp h
  have hnone : held digest front c = 0 := by
    refine Nat.eq_zero_of_not_pos fun hpos => ?_
    obtain ⟨x, hx, hxvalid, rfl⟩ := exists_of_held hpos
    exact absurd (hfront x hx y hy hxvalid hvalid).ordered (Nat.not_le.mpr holder)
  have hcopy : ¬(copy.validChecksum digest = true ∧ copy.covered = c) := by
    rintro ⟨hcvalid, rfl⟩
    rcases List.mem_cons.mp hy with rfl | hy
    · exact Nat.lt_irrefl _ holder
    · exact absurd ((List.pairwise_cons.mp hrest).1 y hy hcvalid hvalid).ordered
        (Nat.not_le.mpr holder)
  rw [held_append, hnone, held_cons, Nat.zero_add]
  simp only [Bool.and_eq_true, beq_iff_eq, if_neg hcopy, Nat.add_zero]

/-- **A write that is cut** keeps the shape. -/
theorem Descends.cut {header : SuperBlockHeader} {left : Left} {copies' : List SuperBlockHeader}
    (h : Descends digest copies) (hnext : Successor digest copies header)
    (hcut : Cut digest header copies left copies') : Descends digest copies' := by
  obtain ⟨front, copy, back, rest, rfl, rfl, hrest⟩ := hcut.shape
  have hmem : ∀ y ∈ copy :: back, y ∈ front ++ copy :: back := fun y hy =>
    List.mem_append_right _ hy
  -- A pair below a copy that is not yet written over stays a pair.
  have hpair : ∀ y ∈ copy :: back, y.validChecksum digest = true →
      (∃ c : Covered, c.sequence + 1 = y.covered.sequence ∧
        openThreshold ≤ held digest (front ++ copy :: back) c) →
      ∃ c : Covered, c.sequence + 1 = y.covered.sequence ∧
        openThreshold ≤ held digest (written header front.length ++ rest :: back) c := by
    rintro y hy hvalid ⟨c, hc, hheld⟩
    refine ⟨c, hc, ?_⟩
    rw [h.held_behind hy hvalid (by omega)] at hheld
    rw [held_append, held_cons]
    omega
  have hheader : ∀ slot, ∀ y ∈ copy :: back, y.validChecksum digest = true →
      Below digest (written header front.length ++ rest :: back) (header.stamp slot) y := by
    intro slot y hy hvalid
    refine ⟨hnext.newest y (hmem y hy) hvalid, hnext.parent y (hmem y hy) hvalid, fun heq => ?_⟩
    have heq : header.covered.sequence = y.covered.sequence := heq
    right
    show ∃ c : Covered, c.sequence + 1 = header.covered.sequence ∧ _
    rw [heq]
    refine hpair y hy hvalid ?_
    rw [← heq]
    exact hnext.paired
  have hsame : ∀ slot other, Below digest (written header front.length ++ rest :: back)
      (header.stamp slot) (header.stamp other) := fun slot other =>
    ⟨Nat.le_refl _, fun heq => absurd heq (by simp), fun _ => Or.inl rfl⟩
  have hold : ∀ a ∈ copy :: back, ∀ b, a.validChecksum digest = true →
      Below digest (front ++ copy :: back) a b →
      Below digest (written header front.length ++ rest :: back) a b := by
    intro a ha b hvalid hbelow
    refine ⟨hbelow.ordered, hbelow.linked, fun heq => ?_⟩
    exact (hbelow.paired heq).imp_right (hpair a ha hvalid)
  obtain ⟨-, htail, -⟩ := List.pairwise_append.mp h
  obtain ⟨hcopy, hback⟩ := List.pairwise_cons.mp htail
  refine List.pairwise_append.mpr ⟨?_, List.pairwise_cons.mpr ⟨?_, ?_⟩, ?_⟩
  · refine List.pairwise_of_forall_mem_list fun a ha b hb _ _ => ?_
    obtain ⟨slot, rfl⟩ := mem_written ha
    obtain ⟨other, rfl⟩ := mem_written hb
    exact hsame slot other
  · intro y hy hvalid hyvalid
    rcases hrest with rfl | rfl | htorn
    · exact hold _ List.mem_cons_self y hvalid (hcopy y hy hvalid hyvalid)
    · exact hheader _ y (List.mem_cons_of_mem _ hy) hyvalid
    · rw [htorn] at hvalid
      cases hvalid
  · exact hback.imp_of_mem fun ha _ hbelow hvalid hyvalid =>
      hold _ (List.mem_cons_of_mem _ ha) _ hvalid (hbelow hvalid hyvalid)
  · intro a ha y hy hvalid hyvalid
    obtain ⟨slot, rfl⟩ := mem_written ha
    rcases List.mem_cons.mp hy with rfl | hy
    · rcases hrest with rfl | rfl | htorn
      · exact hheader slot _ List.mem_cons_self hyvalid
      · exact hsame slot _
      · rw [htorn] at hyvalid
        cases hyvalid
    · exact hheader slot y (List.mem_cons_of_mem _ hy) hyvalid

/-! ### What a boot decides -/

/-- The whole copies of a sequence number that are stopped. -/
def stoppedVotes (digest : Covered → Nat) (sequence : Nat) (copies : List SuperBlockHeader) : Nat :=
  copies.countP fun copy => copy.validChecksum digest && copy.covered.sequence == sequence &&
    decide (Marker.ofByte copy.marker = .stopped)

/-- The decision over one identity. -/
def resolve (identity stopped : Nat) : Except OpenError RestartDecision :=
  if openThreshold ≤ stopped then .ok (.continued identity)
  else if identity + 1 < u64Bound then .ok (.bumped identity (identity + 1))
  else .error .identityExhausted

/-- A boot whose working header is known. -/
def stageFrom (digest : Covered → Nat) (working : SuperBlockHeader) (stopped : Nat) :
    Except OpenError (SuperBlockHeader × RestartDecision) :=
  match resolve working.covered.incarnation stopped with
  | .error error => .error error
  | .ok decision =>
    if working.covered.sequence + 1 < u64Bound then
      .ok (working.advance digest decision.incarnation decision.marker, decision)
    else .error .sequenceOverflow

theorem cohortView_votes (sequence : Nat) :
    (cohortView digest sequence copies).filterMap id =
      (copies.filter fun copy => copy.validChecksum digest && copy.covered.sequence == sequence).map
        fun copy => (⟨copy.covered.incarnation, .ofByte copy.marker⟩ : CopyState) := by
  induction copies with
  | nil => rfl
  | cons copy copies ih =>
    rw [cohortView] at ih
    rw [cohortView, List.map_cons, List.filter_cons]
    split
    · rw [List.map_cons, ← ih]
      rfl
    · exact ih

theorem cohortView_readCopies (sequence : Nat) :
    cohortView digest sequence (readCopies copies) = cohortView digest sequence copies :=
  map_readCopies _ fun _ _ => rfl

/-- When the whole copies of a sequence number are of one header, they vote on its incarnation. -/
theorem classify_cohortView {b : Covered}
    (hsame : ∀ a ∈ copies, a.validChecksum digest = true → a.covered.sequence = b.sequence →
      a.covered = b) (hheld : openThreshold ≤ held digest copies b) :
    classify (cohortView digest b.sequence copies) =
      some ⟨if openThreshold ≤ stoppedVotes digest b.sequence copies then .stopped else .notStopped,
        b.incarnation⟩ := by
  have hvotes := @cohortView_votes digest copies b.sequence
  have huniform : ∀ vote ∈ (cohortView digest b.sequence copies).filterMap id,
      vote.identity = b.incarnation := by
    intro vote hvote
    rw [hvotes] at hvote
    obtain ⟨copy, hcopy, rfl⟩ := List.mem_map.mp hvote
    obtain ⟨hmem, hvoter⟩ := List.mem_filter.mp hcopy
    rw [Bool.and_eq_true, beq_iff_eq] at hvoter
    rw [hsame copy hmem hvoter.1 hvoter.2]
  have hlength : ((cohortView digest b.sequence copies).filterMap id).length =
      held digest copies b := by
    rw [hvotes, List.length_map, ← List.countP_eq_length_filter, held]
    refine List.countP_congr fun copy hmem => ?_
    simp only [Bool.and_eq_true, beq_iff_eq]
    refine and_congr_right fun hvalid => ⟨fun hseq => hsame copy hmem hvalid hseq, fun heq => ?_⟩
    rw [heq]
  have hstopped : ((cohortView digest b.sequence copies).filterMap id).countP
      (fun vote => decide (vote.marker = .stopped)) = stoppedVotes digest b.sequence copies := by
    rw [hvotes, List.countP_map, List.countP_filter, stoppedVotes]
    refine List.countP_congr fun copy _ => ?_
    simp only [Function.comp, Bool.and_eq_true, decide_eq_true_eq]
    exact and_comm
  rw [classify_uniform huniform (hlength ▸ hheld), hstopped]

theorem restart_of_classify {view : CohortView} {stopped identity : Nat}
    (h : classify view =
      some ⟨if openThreshold ≤ stopped then .stopped else .notStopped, identity⟩) :
    restart view = resolve identity stopped := by
  rw [restart, h, resolve]
  by_cases hquorum : openThreshold ≤ stopped
  · simp only [if_pos hquorum]
  · simp only [if_neg hquorum]

/-- The header that a boot works from: it is on two copies, as the last one that is, and nothing is
more than one sequence number above it. -/
structure Working (digest : Covered → Nat) (copies : List SuperBlockHeader)
    (b : SuperBlockHeader) : Prop where
  mem : ∃ copy ∈ copies, ∃ slot, b = copy.stamp slot
  whole : b.validChecksum digest = true
  held : openThreshold ≤ held digest copies b.covered
  gap : ∀ a ∈ copies, a.validChecksum digest = true → a.covered.sequence ≤ b.covered.sequence + 1
  last : ∀ a ∈ copies, a.validChecksum digest = true →
    openThreshold ≤ Zig.held digest copies a.covered →
      a.covered.sequence ≤ b.covered.sequence

/-- The copies of one file, four of them in their shape. -/
structure Shaped (digest : Covered → Nat) (copies : List SuperBlockHeader) : Prop where
  length : copies.length = superblockCopies
  alike : ∀ a ∈ copies, ∀ b ∈ copies, a.validChecksum digest = true →
    b.validChecksum digest = true → a.covered.cluster = b.covered.cluster ∧
      a.covered.vsrState = b.covered.vsrState
  descends : Descends digest copies

theorem Shaped.coherent (h : Shaped digest copies) : Coherent digest copies :=
  h.descends.coherent h.length h.alike

/-- **Readable copies** have a working quorum. -/
theorem working_of_readable (hinj : Function.Injective digest) (h : Shaped digest copies)
    (hreadable : Readable digest copies) :
    ∃ q, Quorums.working digest (readCopies copies) = .ok q ∧ Working digest copies q.header := by
  obtain ⟨q, hq, hmem, hwhole, hheld, hgap, hlast⟩ := working_ok hinj (stamped_readCopies h.length)
    hreadable.read h.coherent.read
  rw [held_readCopies] at hheld
  refine ⟨q, hq, mem_readCopies hmem, hwhole, hheld, fun a ha havalid => ?_,
    fun a ha havalid haheld => ?_⟩
  · obtain ⟨slot, hslot⟩ := readCopies_of_mem ha
    exact hgap (a.stamp slot) hslot havalid
  · obtain ⟨slot, hslot⟩ := readCopies_of_mem ha
    refine hlast (a.stamp slot) hslot havalid ?_
    rw [held_readCopies]
    exact haheld

/-- **Other copies** have none. -/
theorem working_of_not_readable (hinj : Function.Injective digest) (h : Shaped digest copies)
    (hunreadable : ¬Readable digest copies) :
    ∃ error, Quorums.working digest (readCopies copies) = .error error := by
  cases hworking : Quorums.working digest (readCopies copies) with
  | error error => exact ⟨error, rfl⟩
  | ok q =>
    refine absurd ?_ hunreadable
    have halike := h.coherent.read.alike
    obtain ⟨header, hmem, hwhole, hheld, hgap⟩ :=
      readable_of_working hinj (stamped_readCopies h.length) halike hworking
    obtain ⟨copy, hcopy, slot, rfl⟩ := mem_readCopies hmem
    rw [held_readCopies] at hheld
    refine ⟨copy, hcopy, hwhole, hheld, fun a ha havalid => ?_⟩
    obtain ⟨other, hother⟩ := readCopies_of_mem ha
    exact hgap (a.stamp other) hother havalid

/-- The copies of the working sequence number are of the working header. -/
theorem Working.same (h : Shaped digest copies) {b : SuperBlockHeader}
    (hb : Working digest copies b) : ∀ a ∈ copies, a.validChecksum digest = true →
      a.covered.sequence = b.covered.sequence → a.covered = b.covered := by
  intro a ha havalid hseq
  obtain ⟨copy, hcopy, slot, rfl⟩ := hb.mem
  exact h.coherent.unforked a ha copy hcopy havalid hb.whole hb.held hseq

/-- **A boot of readable copies** is decided by the stopped copies of one header. -/
theorem stageOpen_of_readable (hinj : Function.Injective digest) (h : Shaped digest copies)
    (hreadable : Readable digest copies) :
    ∃ b, Working digest copies b ∧ stageOpen digest copies =
      stageFrom digest b (stoppedVotes digest b.covered.sequence copies) := by
  obtain ⟨q, hq, hworking⟩ := working_of_readable hinj h hreadable
  refine ⟨q.header, hworking, ?_⟩
  have hrestart := restart_of_classify (classify_cohortView (hworking.same h) hworking.held)
  rw [stageOpen, hq]
  simp only [cohortView_readCopies, hrestart]
  rfl

/-- **A boot of any other copies** finds no quorum. -/
theorem stageOpen_of_not_readable (hinj : Function.Injective digest) (h : Shaped digest copies)
    (hunreadable : ¬Readable digest copies) :
    ∃ error, stageOpen digest copies = .error (.quorum error) := by
  obtain ⟨error, hworking⟩ := working_of_not_readable hinj h hunreadable
  rw [stageOpen, hworking]
  exact ⟨error, rfl⟩

/-! ### The next header -/

theorem advance_validChecksum (header : SuperBlockHeader) (incarnation : Nat) (marker : Marker) :
    (header.advance digest incarnation marker).validChecksum digest = true :=
  beq_self_eq_true _

theorem Working.successor (h : Shaped digest copies) {b : SuperBlockHeader}
    (hb : Working digest copies b) (incarnation : Nat) (marker : Marker) :
    Successor digest copies (b.advance digest incarnation marker) := by
  refine ⟨advance_validChecksum _ _ _, hb.gap, fun a ha havalid heq => ?_, b.covered, rfl, hb.held⟩
  rw [hb.same h a ha havalid (Nat.succ.inj heq)]
  exact (checksum_of_valid hb.whole).symm

theorem Working.alike (h : Shaped digest copies) {b : SuperBlockHeader}
    (hb : Working digest copies b) : ∀ a ∈ copies, a.validChecksum digest = true →
      a.covered.cluster = b.covered.cluster ∧ a.covered.vsrState = b.covered.vsrState := by
  intro a ha havalid
  obtain ⟨copy, hcopy, slot, rfl⟩ := hb.mem
  exact h.alike a ha copy hcopy havalid hb.whole

theorem written_same {header a : SuperBlockHeader} {count : Nat} (h : a ∈ written header count) :
    a.covered = header.covered ∧ a.marker = header.marker := by
  obtain ⟨slot, rfl⟩ := mem_written h
  exact ⟨rfl, rfl⟩

theorem written_whole {header a : SuperBlockHeader} {count : Nat} (h : a ∈ written header count) :
    a.validChecksum digest = header.validChecksum digest := by
  obtain ⟨slot, rfl⟩ := mem_written h
  rfl

theorem held_written {header : SuperBlockHeader} (hvalid : header.validChecksum digest = true)
    (count : Nat) : held digest (written header count) header.covered = count := by
  have hall : held digest (written header count) header.covered =
      (written header count).length := by
    refine List.countP_eq_length.mpr fun a ha => ?_
    rw [(written_same ha).1, written_whole ha, hvalid, beq_self_eq_true, Bool.and_self]
  rw [hall, written_length]

theorem shaped_written {header : SuperBlockHeader} :
    Shaped digest (written header superblockCopies) := by
  refine ⟨written_length _ _, fun a ha b hb _ _ => ?_, ?_⟩
  · obtain ⟨slot, rfl⟩ := mem_written ha
    obtain ⟨other, rfl⟩ := mem_written hb
    exact ⟨rfl, rfl⟩
  · refine List.pairwise_of_forall_mem_list fun a ha b hb _ _ => ?_
    obtain ⟨slot, rfl⟩ := mem_written ha
    obtain ⟨other, rfl⟩ := mem_written hb
    exact ⟨Nat.le_refl _, fun heq => absurd heq (by simp), fun _ => Or.inl rfl⟩

theorem Shaped.cut (h : Shaped digest copies) {header : SuperBlockHeader} {left : Left}
    {copies' : List SuperBlockHeader} (hnext : Successor digest copies header)
    (halike : ∀ a ∈ copies, a.validChecksum digest = true →
      a.covered.cluster = header.covered.cluster ∧ a.covered.vsrState = header.covered.vsrState)
    (hcut : Cut digest header copies left copies') : Shaped digest copies' := by
  have hheader : ∀ a ∈ copies', a.validChecksum digest = true →
      a.covered.cluster = header.covered.cluster ∧
        a.covered.vsrState = header.covered.vsrState := by
    intro a ha havalid
    rcases hcut.mem ha havalid with ha | ⟨slot, rfl⟩
    · exact halike a ha havalid
    · exact ⟨rfl, rfl⟩
  refine ⟨hcut.length.trans h.length, fun a ha b hb havalid hbvalid => ?_,
    h.descends.cut hnext hcut⟩
  obtain ⟨hacluster, hastate⟩ := hheader a ha havalid
  obtain ⟨hbcluster, hbstate⟩ := hheader b hb hbvalid
  exact ⟨hacluster.trans hbcluster.symm, hastate.trans hbstate.symm⟩

/-- Four copies of one header are what a boot or a stop works from. -/
theorem working_written {header : SuperBlockHeader} (hvalid : header.validChecksum digest = true) :
    Working digest (written header superblockCopies) header := by
  have hsame : ∀ a ∈ written header superblockCopies,
      a.covered.sequence = header.covered.sequence := fun a ha => by
    rw [(written_same ha).1]
  refine ⟨⟨header.stamp 0, List.mem_map.mpr ⟨0, by decide, rfl⟩, header.copy, rfl⟩, hvalid, ?_,
    fun a ha _ => ?_, fun a ha _ _ => Nat.le_of_eq (hsame a ha)⟩
  · rw [held_written hvalid]
    decide
  · rw [hsame a ha]
    exact Nat.le_succ _

theorem readable_written {header : SuperBlockHeader} (hvalid : header.validChecksum digest = true) :
    Readable digest (written header superblockCopies) := by
  have hworking := working_written hvalid
  exact ⟨header.stamp 0, List.mem_map.mpr ⟨0, by decide, rfl⟩, hvalid, hworking.held, hworking.gap⟩

/-- **One cut over four copies of a header** leaves readable copies: two of the old header behind
the cut, or two of the new one in front of it. -/
theorem readable_cut {old header : SuperBlockHeader} {left : Left}
    {copies' : List SuperBlockHeader} (hvalid : old.validChecksum digest = true)
    (hwhole : header.validChecksum digest = true)
    (hnext : header.covered.sequence = old.covered.sequence + 1)
    (hcut : Cut digest header (written old superblockCopies) left copies') :
    Readable digest copies' := by
  have hgap : ∀ a ∈ copies', a.validChecksum digest = true →
      a.covered.sequence ≤ old.covered.sequence + 1 := by
    intro a ha havalid
    rcases hcut.mem ha havalid with ha | ⟨slot, rfl⟩
    · rw [(written_same ha).1]
      exact Nat.le_succ _
    · exact Nat.le_of_eq hnext
  obtain ⟨front, copy, back, rest, hcopies, rfl, -⟩ := hcut.shape
  have hlength := congrArg List.length hcopies
  rw [written_length, List.length_append, List.length_cons] at hlength
  by_cases hfront : openThreshold ≤ front.length
  · have hin : header.stamp 0 ∈ written header front.length ++ rest :: back :=
      List.mem_append_left _ (List.mem_map.mpr
        ⟨0, List.mem_range.mpr (Nat.lt_of_lt_of_le (by decide) hfront), rfl⟩)
    refine ⟨header.stamp 0, hin, hwhole, ?_, fun a ha havalid => ?_⟩
    · have hheld := held_written hwhole front.length
      rw [held_append]
      show openThreshold ≤ held digest (written header front.length) header.covered + _
      omega
    · have hle := hgap a ha havalid
      show _ ≤ header.covered.sequence + 1
      omega
  · have hback : ∀ a ∈ back, a ∈ written old superblockCopies := fun a ha => by
      rw [hcopies]
      exact List.mem_append_right _ (List.mem_cons_of_mem _ ha)
    have hheld : held digest back old.covered = back.length := by
      refine List.countP_eq_length.mpr fun a ha => ?_
      rw [(written_same (hback a ha)).1, written_whole (hback a ha), hvalid, beq_self_eq_true,
        Bool.and_self]
    have hfour : superblockCopies = 4 := rfl
    have htwo : openThreshold = 2 := rfl
    cases back with
    | nil =>
      rw [List.length_nil] at hlength
      omega
    | cons last back =>
      have hlast := hback last List.mem_cons_self
      obtain ⟨hcovered, -⟩ := written_same hlast
      refine ⟨last, List.mem_append_right _ (List.mem_cons_of_mem _ List.mem_cons_self),
        (written_whole hlast).trans hvalid, ?_, fun a ha havalid => ?_⟩
      · rw [hcovered, held_append, held_cons, hheld]
        omega
      · rw [hcovered]
        exact hgap a ha havalid

theorem stageFrom_ok {b header : SuperBlockHeader} {stopped : Nat} {decision : RestartDecision}
    (h : stageFrom digest b stopped = .ok (header, decision)) :
    header = b.advance digest decision.incarnation decision.marker ∧
      ((decision = .continued b.covered.incarnation ∧ openThreshold ≤ stopped) ∨
        (decision = .bumped b.covered.incarnation (b.covered.incarnation + 1) ∧
          ¬openThreshold ≤ stopped)) := by
  unfold stageFrom resolve at h
  by_cases hstopped : openThreshold ≤ stopped
  · simp only [if_pos hstopped] at h
    split at h
    · cases h
      exact ⟨rfl, Or.inl ⟨rfl, hstopped⟩⟩
    · cases h
  · simp only [if_neg hstopped] at h
    split at h
    · cases h
    · rename_i hdecision
      split at h
      · cases h
        split at hdecision
        · cases hdecision
          exact ⟨rfl, Or.inr ⟨rfl, hstopped⟩⟩
        · cases hdecision
      · cases h

/-- **What a boot writes.** -/
theorem stageOpen_ok (hinj : Function.Injective digest) (h : Shaped digest copies)
    {header : SuperBlockHeader} {decision : RestartDecision}
    (hstage : stageOpen digest copies = .ok (header, decision)) :
    ∃ b, Working digest copies b ∧
      header = b.advance digest decision.incarnation decision.marker ∧
      ((decision = .continued b.covered.incarnation ∧
          openThreshold ≤ stoppedVotes digest b.covered.sequence copies) ∨
        (decision = .bumped b.covered.incarnation (b.covered.incarnation + 1) ∧
          ¬openThreshold ≤ stoppedVotes digest b.covered.sequence copies)) := by
  by_cases hreadable : Readable digest copies
  · obtain ⟨b, hb, heq⟩ := stageOpen_of_readable hinj h hreadable
    rw [heq] at hstage
    exact ⟨b, hb, stageFrom_ok hstage⟩
  · obtain ⟨error, heq⟩ := stageOpen_of_not_readable hinj h hreadable
    rw [heq] at hstage
    cases hstage

/-! ### The invariant -/

structure DataFile.Sound (digests : FileDigests) (formatted : Nat) (f : DataFile) : Prop where
  shaped : Shaped digests.header f.copies
  newer : ∀ a ∈ f.copies, a.validChecksum digests.header = true →
    lastIncarnation formatted f.trace ≤ a.covered.incarnation
  /-- A copy says `stopped` only behind the second half of a stop, or from the format. -/
  vouched : ∀ a ∈ f.copies, a.validChecksum digests.header = true →
    Marker.ofByte a.marker = .stopped →
      finishCalled f.trace = true ∨ onlyFormatted f.trace = true
  /-- With no cut since, the copies are what the last call that returned has written. -/
  whole : cuts f.trace = 0 → ∃ header, header.validChecksum digests.header = true ∧
    f.copies = written header superblockCopies ∧
    Marker.ofByte header.marker = lastMarker f.trace ∧
    header.covered.incarnation = lastIncarnation formatted f.trace
  readable : cuts f.trace ≤ 1 → Readable digests.header f.copies
  live : ∀ w, f.working = some w → cuts f.trace = 0 ∧ w.validChecksum digests.header = true ∧
    f.copies = written w superblockCopies
  earlier : ∀ info, .opened info ∈ f.trace → info.incarnation ≤ lastIncarnation formatted f.trace
  loads : ∃ rep, f.zones.load digests.membership = .ok rep

theorem RestartDecision.ofByte_marker (decision : RestartDecision) :
    Marker.ofByte decision.marker.toByte = decision.marker := by
  cases decision <;> rfl

theorem Stop.ofByte_marker (stop : Stop) : Marker.ofByte stop.marker.toByte = stop.marker := by
  cases stop <;> rfl

section Trace

variable {event : FileEvent} (trace : List FileEvent)

theorem cuts_cons : cuts (event :: trace) =
    if event.returned then 0 else cuts trace + if event.isCut then 1 else 0 := by
  rw [cuts, List.takeWhile_cons]
  cases event.returned with
  | true => rfl
  | false => exact List.countP_cons

/-- An event that is no call that returned changes nothing of what the last one has left. -/
theorem trace_cons (h : event.returned = false) (formatted : Nat) :
    lastIncarnation formatted (event :: trace) = lastIncarnation formatted trace ∧
      lastMarker (event :: trace) = lastMarker trace ∧
      onlyFormatted (event :: trace) = onlyFormatted trace ∧
      finishCalled (event :: trace) = (event.finishes || finishCalled trace) := by
  cases event with
  | opened info => cases h
  | stopped stop => cases h
  | refused error => exact ⟨rfl, rfl, rfl, rfl⟩
  | died => exact ⟨rfl, rfl, rfl, rfl⟩
  | cutOpen left => exact ⟨rfl, rfl, rfl, rfl⟩
  | cutStop stop left => exact ⟨rfl, rfl, rfl, rfl⟩

end Trace

theorem DataFile.format_sound (digests : FileDigests) (cluster incarnation : Nat)
    (vsrState : VSRState) :
    (DataFile.format digests cluster incarnation vsrState).Sound digests incarnation := by
  have hvalid : SuperBlockHeader.validChecksum digests.header
      ⟨digests.header ⟨0, cluster, 0, vsrState, incarnation⟩, 0,
        ⟨0, cluster, 0, vsrState, incarnation⟩, Marker.stopped.toByte⟩ = true :=
    beq_self_eq_true _
  refine ⟨shaped_written, fun a ha _ => ?_, fun _ _ _ _ => Or.inr rfl,
    fun _ => ⟨_, hvalid, rfl, rfl, rfl⟩, fun _ => readable_written hvalid, fun w hw => ?_,
    fun info hinfo => absurd hinfo List.not_mem_nil, ?_⟩
  · rw [(written_same ha).1]
    exact Nat.le_refl _
  · cases hw
    exact ⟨rfl, hvalid, rfl⟩
  · have hsound : (Node.format digests.membership 0).Sound digests.membership :=
      Node.format_sound 0
    obtain ⟨rep, hholds, -⟩ := hsound.holds
    exact ⟨rep, hholds.load⟩

namespace DataFile.Sound

variable {digests : FileDigests} {formatted : Nat} {f : DataFile}

/-- Nothing is written. -/
theorem quiet (h : f.Sound digests formatted) {event : FileEvent}
    (hreturned : event.returned = false)
    (hcut : event.isCut = false) {working : Option SuperBlockHeader}
    (hworking : ∀ w, working = some w → f.working = some w) :
    DataFile.Sound digests formatted
      { f with working := working, trace := event :: f.trace } := by
  obtain ⟨hincarnation, hmarker, honly, hfinish⟩ := trace_cons f.trace hreturned formatted
  have hcuts : cuts (event :: f.trace) = cuts f.trace := by
    rw [cuts_cons, hreturned, hcut]
    rfl
  have hopened : ∀ info, .opened info ∈ event :: f.trace → .opened info ∈ f.trace := by
    intro info hinfo
    rcases List.mem_cons.mp hinfo with rfl | hinfo
    · cases hreturned
    · exact hinfo
  constructor
  · exact h.shaped
  · rw [hincarnation]
    exact h.newer
  · intro a ha havalid hstopped
    rw [hfinish, honly]
    exact (h.vouched a ha havalid hstopped).imp_left fun hcalled => by rw [hcalled, Bool.or_true]
  · rw [hcuts, hmarker, hincarnation]
    exact h.whole
  · rw [hcuts]
    exact h.readable
  · rw [hcuts]
    exact fun w hw => h.live w (hworking w hw)
  · rw [hincarnation]
    exact fun info hinfo => h.earlier info (hopened info hinfo)
  · exact h.loads

/-- A write lands on all four copies. -/
theorem write (h : f.Sound digests formatted) {event : FileEvent}
    (hreturned : event.returned = true)
    {header : SuperBlockHeader} (hvalid : header.validChecksum digests.header = true)
    (hnewer : lastIncarnation formatted f.trace ≤ header.covered.incarnation)
    (hmarker : Marker.ofByte header.marker = lastMarker (event :: f.trace))
    (hincarnation : header.covered.incarnation = lastIncarnation formatted (event :: f.trace))
    (hstopped : Marker.ofByte header.marker = .stopped → event.finishes = true)
    (hinfo : ∀ info, event = .opened info → info.incarnation = header.covered.incarnation) :
    DataFile.Sound digests formatted
      { f with
        copies := written header superblockCopies
        working := some header
        trace := event :: f.trace } := by
  have hcuts : cuts (event :: f.trace) = 0 := by
    rw [cuts_cons, hreturned]
    rfl
  refine ⟨shaped_written, fun a ha _ => ?_, fun a ha _ hastopped => Or.inl ?_,
    fun _ => ⟨header, hvalid, rfl, hmarker, hincarnation⟩, fun _ => readable_written hvalid,
    fun w hw => ?_, fun info hmem => ?_, h.loads⟩
  · rw [(written_same ha).1, hincarnation]
  · rw [(written_same ha).2] at hastopped
    have hfinishes := hstopped hastopped
    cases event with
    | stopped stop =>
      rw [finishCalled, List.takeWhile_cons]
      simp only [FileEvent.isOpened, Bool.not_false, if_true, List.any_cons, hfinishes,
        Bool.true_or]
    | cutStop stop left => cases hreturned
    | _ => cases hfinishes
  · cases hw
    exact ⟨hcuts, hvalid, rfl⟩
  · rw [← hincarnation]
    rcases List.mem_cons.mp hmem with heq | hmem
    · exact Nat.le_of_eq (hinfo info heq.symm)
    · exact Nat.le_trans (h.earlier info hmem) hnewer

/-- The process dies in a write. -/
theorem cut (h : f.Sound digests formatted) {event : FileEvent} (hcutEvent : event.isCut = true)
    {b : SuperBlockHeader} (hb : Working digests.header f.copies b) {incarnation : Nat}
    (hnewer : b.covered.incarnation ≤ incarnation) {marker : Marker}
    (hstopped : Marker.ofByte marker.toByte = .stopped → event.finishes = true) {left : Left}
    {copies : List SuperBlockHeader}
    (hcut : Cut digests.header (b.advance digests.header incarnation marker) f.copies left copies) :
    DataFile.Sound digests formatted
      { f with copies := copies, working := none, trace := event :: f.trace } := by
  have hreturned : event.returned = false := by
    cases event with
    | opened info => cases hcutEvent
    | stopped stop => cases hcutEvent
    | _ => rfl
  obtain ⟨hincarnation, -, honly, hfinish⟩ := trace_cons f.trace hreturned formatted
  have hcuts : cuts (event :: f.trace) = cuts f.trace + 1 := by
    rw [cuts_cons, hreturned, hcutEvent]
    rfl
  refine ⟨h.shaped.cut (hb.successor h.shaped _ _) (hb.alike h.shaped) hcut, fun a ha havalid => ?_,
    fun a ha havalid hastopped => ?_, fun hnone => ?_, fun hone => ?_, fun w hw => ?_,
    fun info hinfo => ?_, h.loads⟩
  · rw [hincarnation]
    rcases hcut.mem ha havalid with ha | ⟨slot, rfl⟩
    · exact h.newer a ha havalid
    · obtain ⟨copy, hcopy, other, rfl⟩ := hb.mem
      exact Nat.le_trans (h.newer copy hcopy hb.whole) hnewer
  · rw [honly, hfinish]
    rcases hcut.mem ha havalid with ha | ⟨slot, rfl⟩
    · exact (h.vouched a ha havalid hastopped).imp_left fun hcalled => by
        rw [hcalled, Bool.or_true]
    · left
      rw [hstopped hastopped, Bool.true_or]
  · rw [hcuts] at hnone
    cases hnone
  · rw [hcuts] at hone
    obtain ⟨old, hold, hcopies, -⟩ := h.whole (Nat.le_zero.mp (Nat.le_of_succ_le_succ hone))
    have hbold : b.covered = old.covered := by
      obtain ⟨copy, hcopy, other, rfl⟩ := hb.mem
      rw [hcopies] at hcopy
      exact (written_same hcopy).1
    rw [hcopies] at hcut
    refine readable_cut hold (advance_validChecksum _ _ _) ?_ hcut
    show b.covered.sequence + 1 = _
    rw [hbold]
  · cases hw
  · rw [hincarnation]
    rcases List.mem_cons.mp hinfo with heq | hinfo
    · rw [← heq] at hcutEvent
      cases hcutEvent
    · exact h.earlier info hinfo

end DataFile.Sound

section Steps

variable {digests : FileDigests} {formatted : Nat} {f f' : DataFile}

theorem DataFile.opens_ok {header : SuperBlockHeader} {info : Info}
    (h : f.opens digests = .ok (header, info)) :
    ∃ decision, stageOpen digests.header f.copies = .ok (header, decision) ∧
      info.incarnation = decision.incarnation ∧ info.marker = decision.marker := by
  unfold DataFile.opens at h
  split at h
  · cases h
  · rename_i written decision hstage
    split at h
    · cases h
    · cases h
      exact ⟨decision, hstage, rfl, rfl⟩

theorem DataFile.opens_error (hloads : ∃ rep, f.zones.load digests.membership = .ok rep)
    {error : OpenError} (h : f.opens digests = .error error) :
    stageOpen digests.header f.copies = .error error := by
  obtain ⟨rep, hload⟩ := hloads
  unfold DataFile.opens at h
  split at h
  · rename_i cause hstage
    cases h
    exact hstage
  · rw [hload] at h
    cases h

/-- A decision is over the identity of its working header, and never goes below it. -/
theorem RestartDecision.newer {decision : RestartDecision} {identity stopped : Nat}
    (h : (decision = .continued identity ∧ openThreshold ≤ stopped) ∨
      (decision = .bumped identity (identity + 1) ∧ ¬openThreshold ≤ stopped)) :
    identity ≤ decision.incarnation := by
  rcases h with ⟨rfl, -⟩ | ⟨rfl, -⟩
  · exact Nat.le_refl _
  · exact Nat.le_succ _

theorem RestartDecision.ne_stopped (decision : RestartDecision) :
    Marker.ofByte decision.marker.toByte ≠ .stopped := by
  rw [decision.ofByte_marker]
  cases decision <;> intro h <;> cases h

/-- A header that works is no older than the last incarnation. -/
theorem DataFile.Sound.working_newer (h : f.Sound digests formatted) {b : SuperBlockHeader}
    (hb : Working digests.header f.copies b) :
    lastIncarnation formatted f.trace ≤ b.covered.incarnation := by
  obtain ⟨copy, hcopy, slot, rfl⟩ := hb.mem
  exact h.newer copy hcopy hb.whole

/-- The header a live store works from is on all four copies, as the last call left it. -/
theorem DataFile.Sound.live_working (h : f.Sound digests formatted) {w : SuperBlockHeader}
    (hw : f.working = some w) : Working digests.header f.copies w ∧
      w.covered.incarnation = lastIncarnation formatted f.trace := by
  obtain ⟨hcuts, hvalid, hcopies⟩ := h.live w hw
  obtain ⟨header, -, hwhole, -, hincarnation⟩ := h.whole hcuts
  refine ⟨hcopies ▸ working_written hvalid, ?_⟩
  have hmem : w.stamp 0 ∈ written header superblockCopies := by
    rw [← hwhole, hcopies]
    exact List.mem_map.mpr ⟨0, by decide, rfl⟩
  rw [← hincarnation, ← (written_same hmem).1]
  rfl

/-- **One step** keeps the invariant. -/
theorem FileStep.sound (hinj : Function.Injective digests.header) (hstep : FileStep digests f f')
    (h : f.Sound digests formatted) : f'.Sound digests formatted := by
  cases hstep with
  | opened hopens =>
    obtain ⟨decision, hstage, hincarnation, hmarker⟩ := DataFile.opens_ok hopens
    obtain ⟨b, hb, rfl, hdecision⟩ := stageOpen_ok hinj h.shaped hstage
    refine h.write rfl (advance_validChecksum _ _ _) ?_ ?_ hincarnation.symm
      (fun hstopped => absurd hstopped decision.ne_stopped) fun info heq => ?_
    · exact Nat.le_trans (h.working_newer hb) (RestartDecision.newer hdecision)
    · exact decision.ofByte_marker.trans hmarker.symm
    · cases heq
      exact hincarnation
  | refused hstage hreturns => exact h.quiet rfl rfl fun w hw => hw
  | unloaded hstage hload =>
    obtain ⟨rep, hloads⟩ := h.loads
    rw [hload] at hloads
    cases hloads
  | @stopped working header stop hworking hadvance =>
    obtain ⟨hb, hincarnation⟩ := h.live_working hworking
    unfold advanceMarker at hadvance
    split at hadvance
    · cases hadvance
      refine h.write rfl (advance_validChecksum _ _ _) (Nat.le_of_eq hincarnation.symm)
        stop.ofByte_marker hincarnation (fun hstopped => ?_) fun info heq => by cases heq
      cases stop with
      | begin => cases hstopped
      | finish => rfl
    · cases hadvance
  | died => exact h.quiet rfl rfl fun w hw => by cases hw
  | cutOpen hstage hcut =>
    obtain ⟨b, hb, rfl, hdecision⟩ := stageOpen_ok hinj h.shaped hstage
    exact h.cut rfl hb (RestartDecision.newer hdecision)
      (fun hstopped => absurd hstopped (RestartDecision.ne_stopped _)) hcut
  | @cutStop working header stop left copies hworking hadvance hcut =>
    obtain ⟨hb, -⟩ := h.live_working hworking
    unfold advanceMarker at hadvance
    split at hadvance
    · cases hadvance
      refine h.cut rfl hb (Nat.le_refl _) (fun hstopped => ?_) hcut
      cases stop with
      | begin => cases hstopped
      | finish => rfl
    · cases hadvance

/-- **Every history** keeps it. -/
theorem FileRun.sound (hinj : Function.Injective digests.header) (h : FileRun digests f f')
    (hstart : f.Sound digests formatted) : f'.Sound digests formatted := by
  induction h with
  | start => exact hstart
  | step _ hstep ih => exact hstep.sound hinj ih

end Steps

/-! ### What a boot answers -/

section Answers

variable {digests : FileDigests} {formatted : Nat} {f : DataFile}

theorem stoppedVotes_pos {sequence : Nat} (h : 0 < stoppedVotes digest sequence copies) :
    ∃ a ∈ copies, a.validChecksum digest = true ∧ Marker.ofByte a.marker = .stopped := by
  obtain ⟨a, hmem, hvote⟩ := List.countP_pos_iff.mp h
  simp only [Bool.and_eq_true, beq_iff_eq, decide_eq_true_eq] at hvote
  exact ⟨a, hmem, hvote.1.1, hvote.2⟩

/-- A boot that comes to no write had an incarnation or a sequence number without a successor, or
could not read the copies, and that takes two writes that were cut. -/
theorem DataFile.Sound.opens_error (hinj : Function.Injective digests.header)
    (h : f.Sound digests formatted) {error : OpenError} (herror : f.opens digests = .error error) :
    (2 ≤ cuts f.trace ∧ ¬Readable digests.header f.copies) ∨
      ∃ a ∈ f.copies, a.validChecksum digests.header = true ∧
        ((error = .identityExhausted ∧ u64Bound ≤ a.covered.incarnation + 1) ∨
          (error = .sequenceOverflow ∧ u64Bound ≤ a.covered.sequence + 1)) := by
  have hstage := DataFile.opens_error h.loads herror
  by_cases hreadable : Readable digests.header f.copies
  · right
    obtain ⟨b, hb, heq⟩ := stageOpen_of_readable hinj h.shaped hreadable
    obtain ⟨copy, hcopy, slot, rfl⟩ := hb.mem
    refine ⟨copy, hcopy, hb.whole, ?_⟩
    rw [heq, stageFrom, resolve] at hstage
    split at hstage
    · rename_i cause hcause
      cases hstage
      split at hcause
      · cases hcause
      · split at hcause
        · cases hcause
        · rename_i hlast
          cases hcause
          exact Or.inl ⟨rfl, Nat.not_lt.mp hlast⟩
    · split at hstage
      · cases hstage
      · rename_i hlast
        cases hstage
        exact Or.inr ⟨rfl, Nat.not_lt.mp hlast⟩
  · refine Or.inl ⟨?_, hreadable⟩
    by_contra hfew
    exact hreadable (h.readable (Nat.le_of_lt_succ (Nat.not_le.mp hfew)))

/-- With nothing written behind the second half of a stop, all copies are stopped. -/
theorem DataFile.Sound.opens_stopped (hinj : Function.Injective digests.header)
    (h : f.Sound digests formatted) (hcuts : cuts f.trace = 0)
    (hmarker : lastMarker f.trace = .stopped) :
    f.opens digests = .error .sequenceOverflow ∨
      ∃ header info, f.opens digests = .ok (header, info) ∧ info.marker = .restarting ∧
        info.incarnation = lastIncarnation formatted f.trace := by
  obtain ⟨header, hvalid, hcopies, hstopped, hincarnation⟩ := h.whole hcuts
  obtain ⟨rep, hload⟩ := h.loads
  obtain ⟨b, hb, heq⟩ := stageOpen_of_readable hinj h.shaped
    (h.readable (Nat.le_trans (Nat.le_of_eq hcuts) (Nat.zero_le _)))
  have hcovered : b.covered = header.covered := by
    obtain ⟨copy, hcopy, slot, rfl⟩ := hb.mem
    rw [hcopies] at hcopy
    exact (written_same hcopy).1
  have hvotes : stoppedVotes digests.header b.covered.sequence f.copies = superblockCopies := by
    rw [← h.shaped.length]
    refine List.countP_eq_length.mpr fun a ha => ?_
    rw [hcopies] at ha
    obtain ⟨hacovered, hamarker⟩ := written_same ha
    simp only [hacovered, hamarker, written_whole ha, hvalid, hcovered, hstopped, hmarker,
      beq_self_eq_true,
      decide_true, Bool.and_self]
  rw [hvotes] at heq
  have hdecision : resolve b.covered.incarnation superblockCopies =
      .ok (.continued b.covered.incarnation) := if_pos (by decide)
  unfold DataFile.opens
  simp only [heq, stageFrom, hdecision]
  by_cases hsequence : b.covered.sequence + 1 < u64Bound
  · right
    simp only [if_pos hsequence, hload]
    exact ⟨_, _, rfl, rfl, (congrArg Covered.incarnation hcovered).trans hincarnation⟩
  · left
    simp only [if_neg hsequence]

end Answers

/-- The last event that wrote, or may have written, to the copies. -/
def lastWrite (trace : List FileEvent) : Option FileEvent :=
  trace.find? fun event => event.returned || event.isCut

theorem lastWrite_finish {trace : List FileEvent} (h : lastWrite trace = some (.stopped .finish)) :
    cuts trace = 0 ∧ lastMarker trace = .stopped := by
  induction trace with
  | nil => cases h
  | cons event trace ih =>
    rw [lastWrite, List.find?_cons] at h
    cases event with
    | opened info => cases h
    | cutOpen left => cases h
    | cutStop stop left => cases h
    | stopped stop =>
      cases h
      exact ⟨rfl, rfl⟩
    | refused error => exact ih h
    | died => exact ih h

theorem stopCalled_of_orderly {trace : List FileEvent} (h : Orderly trace)
    (hfinish : finishCalled trace = true) : stopCalled trace = true := by
  induction trace with
  | nil => cases hfinish
  | cons event trace ih =>
    obtain ⟨hevent, htrace⟩ := h
    rw [finishCalled, List.takeWhile_cons] at hfinish
    cases hopened : event.isOpened with
    | true =>
      rw [hopened] at hfinish
      cases hfinish
    | false =>
      rw [hopened] at hfinish
      simp only [Bool.not_false, if_true, List.any_cons, Bool.or_eq_true] at hfinish
      simp only [stopCalled, hopened, Bool.not_false, Bool.true_and, Bool.or_eq_true,
        Bool.and_eq_true]
      rcases hfinish with hfinishes | hbefore
      · exact Or.inl ⟨hfinishes, hevent hfinishes⟩
      · exact Or.inr (ih htrace hbefore)

/-- **Marker store safety.** In every history of one data file, behind its format:

a boot comes to no write only when an incarnation or a sequence number has no successor, or when
the copies are not readable, and then two writes have been cut since the last call that returned;
it answers `restarting` only when the second half of a stop was called since the last boot that
returned, behind the first half if the callers keep to that, or when no call has returned at all;
directly behind the second half of a stop it answers
`restarting` under the incarnation of the boot before; and every incarnation it answers `joining`
with is above all that were answered before. -/
theorem marker_store_safe {digests : FileDigests} (hinj : Function.Injective digests.header)
    {cluster incarnation : Nat} {vsrState : VSRState} {f : DataFile}
    (h : FileRun digests (DataFile.format digests cluster incarnation vsrState) f) :
    (∀ error, f.opens digests = .error error →
      (2 ≤ cuts f.trace ∧ ¬Readable digests.header f.copies) ∨
        ∃ a ∈ f.copies, a.validChecksum digests.header = true ∧
          ((error = .identityExhausted ∧ u64Bound ≤ a.covered.incarnation + 1) ∨
            (error = .sequenceOverflow ∧ u64Bound ≤ a.covered.sequence + 1))) ∧
    (∀ header info, f.opens digests = .ok (header, info) → info.marker = .restarting →
      (finishCalled f.trace = true ∧ (Orderly f.trace → stopCalled f.trace = true)) ∨
        onlyFormatted f.trace = true) ∧
    (lastWrite f.trace = some (.stopped .finish) →
      f.opens digests = .error .sequenceOverflow ∨
        ∃ header info, f.opens digests = .ok (header, info) ∧ info.marker = .restarting ∧
          info.incarnation = lastIncarnation incarnation f.trace) ∧
    (∀ header info, f.opens digests = .ok (header, info) → info.marker = .joining →
      ∀ earlier, .opened earlier ∈ f.trace → earlier.incarnation < info.incarnation) := by
  have hsound := h.sound hinj (DataFile.format_sound digests cluster incarnation vsrState)
  refine ⟨fun error herror => hsound.opens_error hinj herror, fun header info hopens hmarker => ?_,
    fun hlast => ?_, fun header info hopens hmarker earlier hearlier => ?_⟩
  · obtain ⟨decision, hstage, -, hdecided⟩ := DataFile.opens_ok hopens
    obtain ⟨b, hb, -, ⟨-, hvotes⟩ | ⟨rfl, -⟩⟩ := stageOpen_ok hinj hsound.shaped hstage
    · obtain ⟨a, ha, havalid, hstopped⟩ := stoppedVotes_pos (Nat.lt_of_lt_of_le (by decide) hvotes)
      exact (hsound.vouched a ha havalid hstopped).imp_left fun hfinish =>
        ⟨hfinish, fun horderly => stopCalled_of_orderly horderly hfinish⟩
    · rw [hmarker] at hdecided
      cases hdecided
  · obtain ⟨hcuts, hstopped⟩ := lastWrite_finish hlast
    exact hsound.opens_stopped hinj hcuts hstopped
  · obtain ⟨decision, hstage, hincarnation, hdecided⟩ := DataFile.opens_ok hopens
    obtain ⟨b, hb, -, ⟨rfl, -⟩ | ⟨rfl, -⟩⟩ := stageOpen_ok hinj hsound.shaped hstage
    · rw [hmarker] at hdecided
      cases hdecided
    · rw [hincarnation]
      exact Nat.lt_succ_of_le (Nat.le_trans (hsound.earlier earlier hearlier)
        (hsound.working_newer hb))

/-- A checksum that identifies what it covers. -/
def paired (c : Covered) : Nat :=
  Nat.pair c.parent (Nat.pair c.sequence (Nat.pair c.incarnation (Nat.pair c.cluster
    (Nat.pair (Nat.pair c.vsrState.replicaId c.vsrState.commitMax)
      (Nat.pair c.vsrState.logView c.vsrState.view)))))

theorem paired_injective : Function.Injective paired := by
  rintro ⟨sequence, cluster, parent, ⟨replicaId, commitMax, logView, view⟩, incarnation⟩
    ⟨sequence', cluster', parent', ⟨replicaId', commitMax', logView', view'⟩, incarnation'⟩ h
  simp only [paired, Nat.pair_eq_pair] at h
  obtain ⟨rfl, rfl, rfl, rfl, ⟨rfl, rfl⟩, rfl, rfl⟩ := h
  rfl

abbrev pairedDigests : FileDigests := ⟨paired, numbered⟩

theorem pairedDigests_header : pairedDigests.header = paired := by dsimp only [pairedDigests]

theorem pairedDigests_injective : Function.Injective pairedDigests.header := by
  rw [pairedDigests_header]
  exact paired_injective

/-- A data file under this checksum, with copies and a trace. -/
def fileOf (incarnation : Nat) (copies : List SuperBlockHeader) (working : Option SuperBlockHeader)
    (trace : List FileEvent) : DataFile :=
  { DataFile.format pairedDigests 7 incarnation ⟨1, 0, 0, 0⟩ with copies, working, trace }

theorem fileOf_stopped (incarnation : Nat) (copies : List SuperBlockHeader)
    {working : SuperBlockHeader} (trace : List FileEvent) {stop : Stop} {header : SuperBlockHeader}
    (h : advanceMarker paired working stop = some header) :
    FileStep pairedDigests (fileOf incarnation copies (some working) trace)
      (fileOf incarnation (written header superblockCopies) (some header)
        (.stopped stop :: trace)) := by
  rw [← pairedDigests_header] at h
  exact .stopped rfl h

theorem fileOf_cutOpen (incarnation : Nat) {copies copies' : List SuperBlockHeader}
    (working : Option SuperBlockHeader) (trace : List FileEvent) {header : SuperBlockHeader}
    {decision : RestartDecision} {left : Left}
    (hstage : stageOpen paired copies = .ok (header, decision))
    (hcut : Cut paired header copies left copies') :
    FileStep pairedDigests (fileOf incarnation copies working trace)
      (fileOf incarnation copies' none (.cutOpen left :: trace)) := by
  rw [← pairedDigests_header] at hstage hcut
  exact .cutOpen hstage hcut

def formattedHeader (incarnation : Nat) : SuperBlockHeader :=
  have covered : Covered := ⟨0, 7, 0, ⟨1, 0, 0, 0⟩, incarnation⟩
  ⟨paired covered, 0, covered, Marker.stopped.toByte⟩

def formattedFile (incarnation : Nat) : DataFile :=
  DataFile.format pairedDigests 7 incarnation ⟨1, 0, 0, 0⟩

theorem formattedFile_eq (incarnation : Nat) : formattedFile incarnation =
    fileOf incarnation (written (formattedHeader incarnation) superblockCopies)
      (some (formattedHeader incarnation)) [] := by
  unfold formattedFile fileOf DataFile.format
  rw [pairedDigests_header]
  rfl

/-- The next header under the same incarnation. -/
def nextHeader (header : SuperBlockHeader) (marker : Marker) : SuperBlockHeader :=
  header.advance paired header.covered.incarnation marker

/-- A stop in both halves: the next boot continues under the formatted incarnation. -/
theorem marker_store_safe_stopped :
    ∃ f, FileRun pairedDigests (formattedFile 5) f ∧
      f.trace = [.stopped .finish, .stopped .begin] ∧
      (f.opens pairedDigests = .error .sequenceOverflow ∨
        ∃ header info, f.opens pairedDigests = .ok (header, info) ∧ info.marker = .restarting ∧
          info.incarnation = 5) := by
  have hbegin := fileOf_stopped 5 (written (formattedHeader 5) superblockCopies) []
    (rfl : advanceMarker paired (formattedHeader 5) .begin =
      some (nextHeader (formattedHeader 5) .stopping))
  have hfinish := fileOf_stopped 5
    (written (nextHeader (formattedHeader 5) .stopping) superblockCopies) [.stopped .begin]
    (rfl : advanceMarker paired (nextHeader (formattedHeader 5) .stopping) .finish =
      some (nextHeader (nextHeader (formattedHeader 5) .stopping) .stopped))
  rw [← formattedFile_eq] at hbegin
  have hrun := FileRun.step (.step .start hbegin) hfinish
  exact ⟨_, hrun, rfl, (marker_store_safe pairedDigests_injective hrun).2.2.1 rfl⟩

/-- A boot that is cut behind two copies, and the next one behind one: the copies are of three
sequence numbers and no boot gets past them. A boot over the last incarnation refuses. And the
second half of a stop vouches for one without the first. -/
theorem marker_store_refuses :
    (∃ f, FileRun pairedDigests (formattedFile 5) f ∧
      f.opens pairedDigests = .error (.quorum .parentSkipped)) ∧
    (∃ f, FileRun pairedDigests (formattedFile 18446744073709551615) f ∧
      f.opens pairedDigests = .error .identityExhausted) ∧
    ∃ f header info, FileRun pairedDigests (formattedFile 5) f ∧
      f.opens pairedDigests = .ok (header, info) ∧ info.marker = .restarting ∧
      stopCalled f.trace = false ∧ onlyFormatted f.trace = false := by
  refine ⟨?_, ?_, ?_⟩
  · have hfirst := fileOf_cutOpen 5 (some (formattedHeader 5)) []
      (by decide +kernel : stageOpen paired (written (formattedHeader 5) superblockCopies) =
        .ok (nextHeader (formattedHeader 5) .restarting, .continued 5))
      (@Cut.old paired _ [formattedHeader 5, (formattedHeader 5).stamp 1]
        [(formattedHeader 5).stamp 3] ((formattedHeader 5).stamp 2))
    rw [← formattedFile_eq] at hfirst
    have hsecond := fileOf_cutOpen 5 none [.cutOpen .old]
      (by decide +kernel : stageOpen paired [nextHeader (formattedHeader 5) .restarting,
          (nextHeader (formattedHeader 5) .restarting).stamp 1, (formattedHeader 5).stamp 2,
          (formattedHeader 5).stamp 3] =
        .ok ((nextHeader (formattedHeader 5) .restarting).advance paired 6 .joining, .bumped 5 6))
      (@Cut.old paired _ [nextHeader (formattedHeader 5) .restarting]
        [(formattedHeader 5).stamp 2, (formattedHeader 5).stamp 3]
        ((nextHeader (formattedHeader 5) .restarting).stamp 1))
    exact ⟨_, .step (.step .start hfirst) hsecond, by decide +kernel⟩
  · have hbegin := fileOf_stopped 18446744073709551615
      (written (formattedHeader 18446744073709551615) superblockCopies) []
      (rfl : advanceMarker paired (formattedHeader 18446744073709551615) .begin =
        some (nextHeader (formattedHeader 18446744073709551615) .stopping))
    rw [← formattedFile_eq] at hbegin
    exact ⟨_, .step .start hbegin, by decide +kernel⟩
  · have hfinish := fileOf_stopped 5 (written (formattedHeader 5) superblockCopies) []
      (rfl : advanceMarker paired (formattedHeader 5) .finish =
        some (nextHeader (formattedHeader 5) .stopped))
    have hopens : (fileOf 5 (written (nextHeader (formattedHeader 5) .stopped) superblockCopies)
        (some (nextHeader (formattedHeader 5) .stopped)) [.stopped .finish]).opens pairedDigests =
        .ok (nextHeader (nextHeader (formattedHeader 5) .stopped) .restarting,
          ⟨5, 5, .restarting, 0⟩) := by decide +kernel
    rw [← formattedFile_eq] at hfinish
    exact ⟨_, _, _, .step .start hfinish, hopens, rfl, by decide, by decide⟩

end UvrrCore.Zig
