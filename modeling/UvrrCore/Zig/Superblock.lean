import UvrrCore.Grouping

/-!
# The superblock quorums

The data file keeps four copies of a superblock header. A header chains to the one before it by a
sequence number and the checksum of its parent; the checksum covers neither the number of the copy
nor the marker. `Quorums.working` groups the copies that are whole by their checksum, sorts the
groups, and checks that the best of them has two copies and that no other one contradicts it.

* The checksum is a parameter. It identifies what it covers (`Function.Injective`), and a torn copy
  is any header that does not hold its own.
* `held` counts the whole copies of a header. `Readable` is the condition under which `working`
  finds a quorum: some header is on two copies, and none is more than one sequence number above it.
* `working_ok` is the rule: on readable copies that do not fork and are linked, `working` answers
  the header with the highest sequence number that is held twice.
-/

namespace UvrrCore.Zig

open Grouping

abbrev superblockCopies : Nat := 4

/-- The open threshold, 2 of 4. -/
abbrev openThreshold : Nat := 2

structure VSRState where
  replicaId : Nat
  commitMax : Nat
  logView : Nat
  view : Nat
deriving DecidableEq, Repr

def VSRState.monotonic (old new : VSRState) : Bool :=
  old.view ≤ new.view && old.logView ≤ new.logView && old.commitMax ≤ new.commitMax

theorem VSRState.monotonic_self (state : VSRState) : state.monotonic state = true := by
  simp [monotonic]

/-- What the checksum of a header covers. -/
structure Covered where
  sequence : Nat
  cluster : Nat
  /-- The checksum of the header before. -/
  parent : Nat
  vsrState : VSRState
  incarnation : Nat
deriving DecidableEq, Repr

structure SuperBlockHeader where
  checksum : Nat
  copy : Nat
  covered : Covered
  marker : Nat
deriving DecidableEq, Repr

namespace SuperBlockHeader

def calculateChecksum (digest : Covered → Nat) (header : SuperBlockHeader) : Nat :=
  digest header.covered

def validChecksum (digest : Covered → Nat) (header : SuperBlockHeader) : Bool :=
  header.checksum == header.calculateChecksum digest

/-- The header that covers so much, with its checksum. -/
def sealed (digest : Covered → Nat) (covered : Covered) (marker : Nat) : SuperBlockHeader :=
  ⟨digest covered, 0, covered, marker⟩

end SuperBlockHeader

/-! ### Quorums -/

/-- The copies of one checksum: the first of them, and which they are. -/
structure Quorum where
  header : SuperBlockHeader
  valid : Bool
  copies : List Nat
deriving DecidableEq, Repr

inductive QuorumError where
  | fork
  | notFound
  | quorumLost
  | parentNotConnected
  | parentSkipped
  | vsrStateNotMonotonic
deriving DecidableEq, Repr

namespace Quorum

/-- A bit set, once. -/
def set (copies : List Nat) (copy : Nat) : List Nat :=
  if copy ∈ copies then copies else copies ++ [copy]

/-- A copy counted. One that says it is none of the four stands for the slot it was read from. -/
def count (q : Quorum) (slot : Nat) (copy : SuperBlockHeader) : Quorum :=
  have copies := set q.copies (if superblockCopies ≤ copy.copy then slot else copy.copy)
  ⟨q.header, decide (openThreshold ≤ copies.length), copies⟩

/-- The copies that are whole, with their slots, by their checksum. -/
def scheme : Scheme (Nat × SuperBlockHeader) Quorum Nat where
  key read := read.2.checksum
  groupKey q := q.header.checksum
  opened read := count ⟨read.2, false, []⟩ read.1 read.2
  joined q read := count q read.1 read.2
  opened_key _ := rfl
  joined_key _ _ := rfl

/-- The order of the quorums: the valid ones first, then the latest, then the largest. -/
def sortPriorityDescending (a b : Quorum) : Bool :=
  if a.valid && !b.valid then true
  else if b.valid && !a.valid then false
  else if b.header.covered.sequence < a.header.covered.sequence then true
  else if a.header.covered.sequence < b.header.covered.sequence then false
  else if b.copies.length < a.copies.length then true
  else if a.copies.length < b.copies.length then false
  else decide (b.header.checksum < a.header.checksum)

/-- `a` may stand in front of `b`. -/
def Precedes (a b : Quorum) : Prop := sortPriorityDescending b a = false

instance (a b : Quorum) : Decidable (a.Precedes b) := inferInstanceAs (Decidable (_ = false))

end Quorum

namespace Quorums

/-- The quorums in their order. -/
def sorted (digest : Covered → Nat) (copies : List SuperBlockHeader) : List Quorum :=
  (Quorum.scheme.group (((List.range copies.length).zip copies).filter
    fun read => read.2.validChecksum digest)).insertionSort Quorum.Precedes

/-- The best quorum against the others: a fork, a gap above it, or a parent that it does not
continue. The first parent that it continues ends the check. -/
def check (b : Quorum) : List Quorum → Except QuorumError Quorum
  | [] => .ok b
  | a :: rest =>
    if a.header.covered.cluster ≠ b.header.covered.cluster then check b rest
    else if a.header.covered.vsrState.replicaId ≠ b.header.covered.vsrState.replicaId then
      check b rest
    else if a.header.covered.sequence = b.header.covered.sequence then .error .fork
    else if b.header.covered.sequence + 1 < a.header.covered.sequence then .error .parentSkipped
    else if a.header.covered.sequence + 1 = b.header.covered.sequence then
      if a.header.checksum ≠ b.header.covered.parent then .error .parentNotConnected
      else if ¬a.header.covered.vsrState.monotonic b.header.covered.vsrState then
        .error .vsrStateNotMonotonic
      else .ok b
    else check b rest

def working (digest : Covered → Nat) (copies : List SuperBlockHeader) :
    Except QuorumError Quorum :=
  match sorted digest copies with
  | [] => .error .notFound
  | b :: rest => if ¬b.valid then .error .quorumLost else check b rest

end Quorums

namespace Quorum

/-- Valid before invalid, then the later sequence number, and so on: a comparison of ranks. -/
theorem precedes_iff {a b : Quorum} :
    a.Precedes b ↔ (b.valid = true → a.valid = true) ∧
      (a.valid = b.valid → b.header.covered.sequence ≤ a.header.covered.sequence ∧
        (a.header.covered.sequence = b.header.covered.sequence →
          b.copies.length ≤ a.copies.length ∧ (a.copies.length = b.copies.length →
            b.header.checksum ≤ a.header.checksum))) := by
  unfold Precedes sortPriorityDescending
  cases a.valid <;> cases b.valid <;> grind

instance : Std.Total Precedes where
  total a b := by
    simp only [precedes_iff]
    cases a.valid <;> cases b.valid <;> grind

instance : IsTrans Quorum Precedes where
  trans a b c := by
    simp only [precedes_iff]
    cases a.valid <;> cases b.valid <;> cases c.valid <;> grind

end Quorum

/-! ### What is on the copies -/

/-- The copies that carry the number of their slot, as a boot stamps them. -/
def Stamped (copies : List SuperBlockHeader) : Prop :=
  copies.length = superblockCopies ∧
    ∀ read ∈ (List.range copies.length).zip copies, read.2.copy = read.1

/-- How many whole copies a header has. -/
def held (digest : Covered → Nat) (copies : List SuperBlockHeader) (covered : Covered) : Nat :=
  copies.countP fun copy => copy.validChecksum digest && copy.covered == covered

/-- Some header is on two copies, and no whole copy is more than one sequence number above it. -/
def Readable (digest : Covered → Nat) (copies : List SuperBlockHeader) : Prop :=
  ∃ h ∈ copies, h.validChecksum digest = true ∧ openThreshold ≤ held digest copies h.covered ∧
    ∀ a ∈ copies, a.validChecksum digest = true → a.covered.sequence ≤ h.covered.sequence + 1

/-- The whole copies are of one file, and no other one contradicts a header on two of them: none has
its sequence number, and what stands one below it is its parent. -/
structure Coherent (digest : Covered → Nat) (copies : List SuperBlockHeader) : Prop where
  alike : ∀ a ∈ copies, ∀ b ∈ copies, a.validChecksum digest = true →
    b.validChecksum digest = true → a.covered.cluster = b.covered.cluster ∧
      a.covered.vsrState = b.covered.vsrState
  unforked : ∀ a ∈ copies, ∀ b ∈ copies, a.validChecksum digest = true →
    b.validChecksum digest = true → openThreshold ≤ held digest copies b.covered →
      a.covered.sequence = b.covered.sequence → a.covered = b.covered
  linked : ∀ a ∈ copies, ∀ b ∈ copies, a.validChecksum digest = true →
    b.validChecksum digest = true → openThreshold ≤ held digest copies b.covered →
      a.covered.sequence + 1 = b.covered.sequence → digest a.covered = b.covered.parent

variable {digest : Covered → Nat} {copies : List SuperBlockHeader}

theorem checksum_of_valid {h : SuperBlockHeader} (hvalid : h.validChecksum digest = true) :
    h.checksum = digest h.covered := beq_iff_eq.mp hvalid

theorem held_cons (a : SuperBlockHeader) (c : Covered) :
    held digest (a :: copies) c =
      held digest copies c + if a.validChecksum digest && a.covered == c then 1 else 0 :=
  List.countP_cons

theorem held_append (front back : List SuperBlockHeader) (c : Covered) :
    held digest (front ++ back) c = held digest front c + held digest back c := List.countP_append

theorem exists_of_held {c : Covered} (h : 0 < held digest copies c) :
    ∃ a ∈ copies, a.validChecksum digest = true ∧ a.covered = c := by
  obtain ⟨a, hmem, hcovers⟩ := List.countP_pos_iff.mp h
  rw [Bool.and_eq_true, beq_iff_eq] at hcovers
  exact ⟨a, hmem, hcovers⟩

theorem held_pos {a : SuperBlockHeader} (hmem : a ∈ copies)
    (hvalid : a.validChecksum digest = true) :
    0 < held digest copies a.covered :=
  List.countP_pos_iff.mpr ⟨a, hmem, by rw [hvalid, beq_self_eq_true, Bool.and_self]⟩

/-- Three headers are on as many copies as there are at most. -/
theorem held_three {a b c : Covered} (hab : a ≠ b) (hac : a ≠ c) (hbc : b ≠ c) :
    held digest copies a + held digest copies b + held digest copies c ≤ copies.length := by
  induction copies with
  | nil => exact Nat.le_refl _
  | cons head copies ih =>
    simp only [held_cons, List.length_cons, Bool.and_eq_true, beq_iff_eq]
    have hone : (if head.validChecksum digest = true ∧ head.covered = a then 1 else 0) +
        (if head.validChecksum digest = true ∧ head.covered = b then 1 else 0) +
        (if head.validChecksum digest = true ∧ head.covered = c then 1 else 0) ≤ 1 := by
      by_cases ha : head.covered = a
      · simp only [ha, hab, hac, and_false, if_false]
        split <;> decide
      · by_cases hb : head.covered = b
        · simp only [hb, Ne.symm hab, hbc, and_false, if_false]
          split <;> decide
        · simp only [ha, hb, and_false, if_false]
          split <;> decide
    omega

/-- The reads of the whole copies of one checksum are as many as its header is held. -/
theorem members_length (copies : List SuperBlockHeader) (hinj : Function.Injective digest)
    {h : SuperBlockHeader} (hvalid : h.validChecksum digest = true) :
    (Quorum.scheme.members h.checksum (((List.range copies.length).zip copies).filter
      fun read => read.2.validChecksum digest)).length = held digest copies h.covered := by
  have hsnd : ((List.range copies.length).zip copies).map Prod.snd = copies :=
    List.map_snd_zip (by rw [List.length_range])
  rw [Scheme.members, List.filter_filter, ← List.countP_eq_length_filter, held]
  conv_rhs => rw [← hsnd, List.countP_map]
  refine List.countP_congr fun read _ => ?_
  simp only [Function.comp, Bool.and_eq_true, decide_eq_true_eq, beq_iff_eq]
  constructor
  · rintro ⟨hkey, hread⟩
    refine ⟨hread, hinj ?_⟩
    rw [← checksum_of_valid hread, ← checksum_of_valid hvalid]
    exact hkey
  · rintro ⟨hread, hcovered⟩
    refine ⟨?_, hread⟩
    show read.2.checksum = h.checksum
    rw [checksum_of_valid hread, checksum_of_valid hvalid, hcovered]

/-- Reads with the numbers of their slots make a quorum of all of them. -/
theorem made_stamped {reads : List (Nat × SuperBlockHeader)}
    (hstamped : ∀ read ∈ reads, read.2.copy = read.1 ∧ read.1 < superblockCopies)
    (hdistinct : (reads.map Prod.fst).Nodup) {q : Quorum} (h : Quorum.scheme.made reads = some q) :
    q.copies = reads.map Prod.fst ∧ q.valid = decide (openThreshold ≤ reads.length) ∧
      ∃ read ∈ reads, read.2 = q.header := by
  induction reads using List.reverseRecOn generalizing q with
  | nil => cases h
  | append_singleton reads read ih =>
    obtain ⟨hcopy, hslot⟩ := hstamped read (List.mem_append_right _ (List.mem_singleton.mpr rfl))
    have hin : (if superblockCopies ≤ read.2.copy then read.1 else read.2.copy) = read.1 := by
      rw [hcopy, if_neg (Nat.not_le.mpr hslot)]
    cases reads with
    | nil =>
      cases h
      refine ⟨?_, ?_, read, List.mem_append_right _ (List.mem_singleton.mpr rfl), rfl⟩
      · simp [Quorum.scheme, Quorum.count, Quorum.set, hin]
      · simp [Quorum.scheme, Quorum.count, Quorum.set]
    | cons first reads =>
      have hmade : Quorum.scheme.made (first :: reads) =
          some (reads.foldl Quorum.scheme.joined (Quorum.scheme.opened first)) := rfl
      rw [List.map_append, List.map_singleton, List.nodup_append] at hdistinct
      obtain ⟨hfront, -, hnew⟩ := hdistinct
      obtain ⟨hcopies, -, source, hsource, hheader⟩ :=
        ih (fun read hread => hstamped read (List.mem_append_left _ hread)) hfront hmade
      rw [made_snoc hmade] at h
      cases h
      have hset : Quorum.set (reads.foldl Quorum.scheme.joined (Quorum.scheme.opened first)).copies
          read.1 = (first :: reads).map Prod.fst ++ [read.1] := by
        rw [hcopies, Quorum.set, if_neg fun hmem => hnew _ hmem _ (List.mem_singleton.mpr rfl) rfl]
      refine ⟨?_, ?_, source, List.mem_append_left _ hsource, hheader⟩
      · show Quorum.set _ (if _ then _ else _) = _
        rw [hin, hset, List.map_append, List.map_singleton]
      · show decide (_ ≤ (Quorum.set _ (if _ then _ else _)).length) = _
        rw [hin, hset, List.length_append, List.length_append, List.length_map]
        rfl

/-! ### The working quorum -/

/-- The account of the sorted quorums: each has the copies its header is held on, each whole copy
is in one, and no two have one header. -/
structure Sorted (digest : Covered → Nat) (copies : List SuperBlockHeader) (qs : List Quorum) :
    Prop where
  mem : ∀ q ∈ qs, q.header ∈ copies ∧ q.header.validChecksum digest = true
  count : ∀ q ∈ qs, q.copies.length = held digest copies q.header.covered
  valid : ∀ q ∈ qs, q.valid = decide (openThreshold ≤ held digest copies q.header.covered)
  covers : ∀ h ∈ copies, h.validChecksum digest = true → ∃ q ∈ qs, q.header.covered = h.covered
  distinct : (qs.map fun q => q.header.covered).Nodup
  pairwise : qs.Pairwise Quorum.Precedes

theorem sorted_sorted (hinj : Function.Injective digest) (hstamped : Stamped copies) :
    Sorted digest copies (Quorums.sorted digest copies) := by
  obtain ⟨hlength, hcopy⟩ := hstamped
  have hgrouped := grouped_group Quorum.scheme (((List.range copies.length).zip copies).filter
    fun read => read.2.validChecksum digest)
  have hsnd : ((List.range copies.length).zip copies).map Prod.snd = copies :=
    List.map_snd_zip (by rw [List.length_range])
  have hfst : ((List.range copies.length).zip copies).map Prod.fst = List.range copies.length :=
    List.map_fst_zip (by rw [List.length_range])
  have hquorum : ∀ q ∈ Quorums.sorted digest copies,
      (q.header ∈ copies ∧ q.header.validChecksum digest = true) ∧
      q.copies.length = held digest copies q.header.covered ∧
      q.valid = decide (openThreshold ≤ held digest copies q.header.covered) := by
    intro q hq
    have hmade := hgrouped.made q ((List.mem_insertionSort _).mp hq)
    have hreads : ∀ read ∈ Quorum.scheme.members (Quorum.scheme.groupKey q)
        (((List.range copies.length).zip copies).filter fun read => read.2.validChecksum digest),
        read ∈ (List.range copies.length).zip copies ∧ read.2.validChecksum digest = true := by
      intro read hread
      exact List.mem_filter.mp (List.mem_of_mem_filter hread)
    have hslots : ∀ read ∈ Quorum.scheme.members (Quorum.scheme.groupKey q)
        (((List.range copies.length).zip copies).filter fun read => read.2.validChecksum digest),
        read.2.copy = read.1 ∧ read.1 < superblockCopies := by
      intro read hread
      have hin := (hreads read hread).1
      refine ⟨hcopy read hin, ?_⟩
      have hrange : read.1 ∈ List.range copies.length := hfst ▸ List.mem_map_of_mem hin
      rw [← hlength]
      exact List.mem_range.mp hrange
    have hdistinct : ((Quorum.scheme.members (Quorum.scheme.groupKey q)
        (((List.range copies.length).zip copies).filter
          fun read => read.2.validChecksum digest)).map Prod.fst).Nodup := by
      have hall : (((List.range copies.length).zip copies).map Prod.fst).Nodup := by
        rw [hfst]
        exact List.nodup_range
      exact hall.sublist ((List.filter_sublist.trans List.filter_sublist).map _)
    obtain ⟨hcopies, hvalid, read, hread, hheader⟩ := made_stamped hslots hdistinct hmade
    obtain ⟨hin, hwhole⟩ := hreads read hread
    rw [hheader] at hwhole
    have hcount := members_length copies hinj hwhole
    have hkey : Quorum.scheme.groupKey q = q.header.checksum := rfl
    rw [hkey] at hcopies hvalid
    rw [hcount] at hvalid
    refine ⟨⟨?_, hwhole⟩, ?_, hvalid⟩
    · rw [← hheader, ← hsnd]
      exact List.mem_map_of_mem hin
    · rw [hcopies, List.length_map, hcount]
  have hcovered : ∀ q ∈ Quorums.sorted digest copies,
      q.header.checksum = digest q.header.covered := fun q hq =>
    checksum_of_valid (hquorum q hq).1.2
  refine ⟨fun q hq => (hquorum q hq).1, fun q hq => (hquorum q hq).2.1,
    fun q hq => (hquorum q hq).2.2, fun h hmem hvalid => ?_, ?_, List.pairwise_insertionSort _ _⟩
  · rw [← hsnd] at hmem
    obtain ⟨read, hread, rfl⟩ := List.mem_map.mp hmem
    obtain ⟨q, hq, hkey⟩ := hgrouped.covers read (List.mem_filter.mpr ⟨hread, hvalid⟩)
    have hsorted := (List.mem_insertionSort Quorum.Precedes).mpr hq
    have hkey : q.header.checksum = read.2.checksum := hkey
    rw [hcovered q hsorted, checksum_of_valid hvalid] at hkey
    exact ⟨q, hsorted, hinj hkey⟩
  · have hkeys : ((Quorums.sorted digest copies).map fun q => q.header.checksum).Nodup :=
      ((List.perm_insertionSort _ _).map _).nodup_iff.mpr hgrouped.distinct
    have hsame : ((Quorums.sorted digest copies).map fun q => q.header.checksum) =
        ((Quorums.sorted digest copies).map fun q => q.header.covered).map digest := by
      rw [List.map_map]
      exact List.map_congr_left hcovered
    rw [hsame] at hkeys
    exact List.Nodup.of_map digest hkeys

/-- **The check passes** on a quorum that no other contradicts. -/
theorem check_ok {b : Quorum} {rest : List Quorum}
    (h : ∀ a ∈ rest, a.header.covered.sequence ≠ b.header.covered.sequence ∧
      a.header.covered.sequence ≤ b.header.covered.sequence + 1 ∧
      (a.header.covered.sequence + 1 = b.header.covered.sequence →
        a.header.checksum = b.header.covered.parent ∧
        a.header.covered.vsrState = b.header.covered.vsrState)) :
    Quorums.check b rest = .ok b := by
  induction rest with
  | nil => rfl
  | cons a rest ih =>
    obtain ⟨⟨hfork, hgap, hparent⟩, hrest⟩ := List.forall_mem_cons.mp h
    unfold Quorums.check
    split
    · exact ih hrest
    · split
      · exact ih hrest
      · rw [if_neg (Nat.not_lt.mpr hgap)]
        split
        · rename_i hbelow
          obtain ⟨hchecksum, hstate⟩ := hparent hbelow
          rw [if_neg (not_not.mpr hchecksum), hstate,
            if_neg (not_not.mpr (VSRState.monotonic_self _))]
        · exact ih hrest

/-- **The working quorum** of readable copies: of the headers on two copies, the one with the
highest sequence number. -/
theorem working_ok (hinj : Function.Injective digest) (hstamped : Stamped copies)
    (hreadable : Readable digest copies) (hcoherent : Coherent digest copies) :
    ∃ q, Quorums.working digest copies = .ok q ∧ q.header ∈ copies ∧
      q.header.validChecksum digest = true ∧ openThreshold ≤ held digest copies q.header.covered ∧
      (∀ a ∈ copies, a.validChecksum digest = true →
        a.covered.sequence ≤ q.header.covered.sequence + 1) ∧
      ∀ a ∈ copies, a.validChecksum digest = true → openThreshold ≤ held digest copies a.covered →
        a.covered.sequence ≤ q.header.covered.sequence := by
  have hsorted := sorted_sorted hinj hstamped
  obtain ⟨h, hmem, hvalid, hheld, hgap⟩ := hreadable
  obtain ⟨q, hq, hqh⟩ := hsorted.covers h hmem hvalid
  unfold Quorums.working
  cases hqs : Quorums.sorted digest copies with
  | nil =>
    rw [hqs] at hq
    cases hq
  | cons b rest =>
    rw [hqs] at hsorted hq
    have hbest : ∀ a ∈ rest, b.Precedes a := (List.pairwise_cons.mp hsorted.pairwise).1
    obtain ⟨hbmem, hbvalid⟩ := hsorted.mem b List.mem_cons_self
    have hquorum : ∀ a ∈ b :: rest, openThreshold ≤ held digest copies a.header.covered →
        b.valid = true ∧ a.header.covered.sequence ≤ b.header.covered.sequence := by
      intro a ha haheld
      have havalid : a.valid = true := by
        rw [hsorted.valid a ha]
        exact decide_eq_true haheld
      rcases List.mem_cons.mp ha with rfl | ha
      · exact ⟨havalid, Nat.le_refl _⟩
      · obtain ⟨hvalids, hrank⟩ := Quorum.precedes_iff.mp (hbest a ha)
        have hb := hvalids havalid
        exact ⟨hb, (hrank (hb.trans havalid.symm)).1⟩
    have hb := hquorum q hq (hqh ▸ hheld)
    have hbheld : openThreshold ≤ held digest copies b.header.covered := by
      have hdecide := hsorted.valid b List.mem_cons_self
      rw [hb.1] at hdecide
      exact of_decide_eq_true hdecide.symm
    have hbgap : ∀ a ∈ copies, a.validChecksum digest = true →
        a.covered.sequence ≤ b.header.covered.sequence + 1 := by
      intro a ha havalid
      have hle := hb.2
      rw [hqh] at hle
      exact Nat.le_trans (hgap a ha havalid) (Nat.succ_le_succ hle)
    refine ⟨b, ?_, hbmem, hbvalid, hbheld, hbgap, fun a ha havalid haheld => ?_⟩
    · simp only [hb.1, not_true, if_false]
      refine check_ok fun a ha => ?_
      obtain ⟨hamem, havalid⟩ := hsorted.mem a (List.mem_cons_of_mem _ ha)
      have hdistinct := hsorted.distinct
      rw [List.map_cons, List.nodup_cons] at hdistinct
      refine ⟨fun hsame => hdistinct.1 ?_, hbgap _ hamem havalid, fun hbelow => ⟨?_, ?_⟩⟩
      · rw [← hcoherent.unforked _ hamem _ hbmem havalid hbvalid hbheld hsame]
        exact List.mem_map_of_mem ha
      · rw [checksum_of_valid havalid]
        exact hcoherent.linked _ hamem _ hbmem havalid hbvalid hbheld hbelow
      · exact (hcoherent.alike _ hamem _ hbmem havalid hbvalid).2
    · obtain ⟨p, hp, hpa⟩ := hsorted.covers a ha havalid
      rw [← hpa]
      exact (hquorum p hp (hpa ▸ haheld)).2

/-- A check that passes has seen no gap, unless it ended early at the parent. -/
theorem check_sound {b q : Quorum} {rest : List Quorum} (h : Quorums.check b rest = .ok q)
    (hsorted : rest.Pairwise Quorum.Precedes)
    (halike : ∀ a ∈ rest, a.header.covered.cluster = b.header.covered.cluster ∧
      a.header.covered.vsrState = b.header.covered.vsrState) :
    q = b ∧ ∀ a ∈ rest, a.header.covered.sequence ≤ b.header.covered.sequence + 1 ∨
      ∃ x ∈ rest, x.Precedes a ∧ x.header.covered.sequence + 1 = b.header.covered.sequence := by
  induction rest with
  | nil =>
    cases h
    exact ⟨rfl, fun a ha => absurd ha List.not_mem_nil⟩
  | cons x rest ih =>
    obtain ⟨⟨hcluster, hstate⟩, halike⟩ := List.forall_mem_cons.mp halike
    obtain ⟨hfirst, hsorted⟩ := List.pairwise_cons.mp hsorted
    unfold Quorums.check at h
    rw [if_neg (not_not.mpr hcluster), hstate, if_neg (not_not.mpr rfl)] at h
    split at h
    · cases h
    · split at h
      · cases h
      · rename_i hgap
        split at h
        · rename_i hparent
          have hq : q = b := by
            split at h
            · cases h
            · split at h
              · cases h
              · exact (Except.ok.inj h).symm
          refine ⟨hq, fun a ha => ?_⟩
          rcases List.mem_cons.mp ha with rfl | ha
          · exact Or.inl (Nat.not_lt.mp hgap)
          · exact Or.inr ⟨x, List.mem_cons_self, hfirst a ha, hparent⟩
        · obtain ⟨hq, hrest⟩ := ih h hsorted halike
          refine ⟨hq, fun a ha => ?_⟩
          rcases List.mem_cons.mp ha with rfl | ha
          · exact Or.inl (Nat.not_lt.mp hgap)
          · refine (hrest a ha).imp_right ?_
            rintro ⟨y, hy, hprecedes, hparent⟩
            exact ⟨y, List.mem_cons_of_mem _ hy, hprecedes, hparent⟩

/-- **Only readable copies** have a working quorum. -/
theorem readable_of_working (hinj : Function.Injective digest) (hstamped : Stamped copies)
    (halike : ∀ a ∈ copies, ∀ b ∈ copies, a.validChecksum digest = true →
      b.validChecksum digest = true → a.covered.cluster = b.covered.cluster ∧
        a.covered.vsrState = b.covered.vsrState) {q : Quorum}
    (h : Quorums.working digest copies = .ok q) : Readable digest copies := by
  have hsorted := sorted_sorted hinj hstamped
  unfold Quorums.working at h
  cases hqs : Quorums.sorted digest copies with
  | nil =>
    rw [hqs] at h
    cases h
  | cons b rest =>
    rw [hqs] at h hsorted
    simp only at h
    split at h
    · cases h
    · rename_i hb
      rw [not_not] at hb
      obtain ⟨hbmem, hbvalid⟩ := hsorted.mem b List.mem_cons_self
      have hbheld : openThreshold ≤ held digest copies b.header.covered := by
        have hdecide := hsorted.valid b List.mem_cons_self
        rw [hb] at hdecide
        exact of_decide_eq_true hdecide.symm
      obtain ⟨hfirst, hrest⟩ := List.pairwise_cons.mp hsorted.pairwise
      obtain ⟨-, hgaps⟩ := check_sound h hrest fun a ha => by
        obtain ⟨hamem, havalid⟩ := hsorted.mem a (List.mem_cons_of_mem _ ha)
        exact halike _ hamem _ hbmem havalid hbvalid
      refine ⟨b.header, hbmem, hbvalid, hbheld, fun a ha havalid => ?_⟩
      obtain ⟨p, hp, hpa⟩ := hsorted.covers a ha havalid
      rw [← hpa]
      rcases List.mem_cons.mp hp with rfl | hp
      · exact Nat.le_succ _
      · rcases hgaps p hp with hgap | ⟨x, hx, hprecedes, hparent⟩
        · exact hgap
        · by_contra hgap
          -- The gap stands behind the parent, so the parent is held twice, and so is `b`.
          have hpinvalid : p.valid = false := by
            rw [Bool.eq_false_iff]
            intro hpvalid
            have hrank := (Quorum.precedes_iff.mp (hfirst p hp)).2 (hb.trans hpvalid.symm)
            omega
          have hxvalid : x.valid = true := by
            by_contra hxinvalid
            rw [Bool.not_eq_true] at hxinvalid
            have hrank := (Quorum.precedes_iff.mp hprecedes).2 (hxinvalid.trans hpinvalid.symm)
            omega
          have hxheld : 2 ≤ held digest copies x.header.covered := by
            have hdecide := hsorted.valid x (List.mem_cons_of_mem _ hx)
            rw [hxvalid] at hdecide
            exact of_decide_eq_true hdecide.symm
          obtain ⟨hpmem, hpwhole⟩ := hsorted.mem p (List.mem_cons_of_mem _ hp)
          have hxb : x.header.covered ≠ b.header.covered := fun heq => by
            rw [heq] at hparent
            omega
          have hxp : x.header.covered ≠ p.header.covered := fun heq => by
            rw [heq] at hparent
            omega
          have hbp : b.header.covered ≠ p.header.covered := fun heq => by
            rw [heq] at hgap
            omega
          have hthree : held digest copies x.header.covered + held digest copies b.header.covered +
              held digest copies p.header.covered ≤ copies.length := held_three hxb hxp hbp
          have hfour : copies.length = 4 := hstamped.1
          have htwo : 2 ≤ held digest copies b.header.covered := hbheld
          have hone : 0 < held digest copies p.header.covered := held_pos hpmem hpwhole
          omega

end UvrrCore.Zig
