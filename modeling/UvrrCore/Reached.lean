import UvrrCore.Cluster
import UvrrCore.Replica.Spec

/-!
# Reachable replicas

The states a replica gets into: provisioned with a fresh cluster, given any inputs in any order,
its journal reclaimed at the published checkpoint, and reopened on its durable record after a
crash or a stop.
-/

namespace UvrrCore

variable {J : Type} [Journal J]

/-- What a journal may let go of when the host offers it a checkpoint. -/
structure Reclaims (journal journal' : J) (checkpoint : Nat) : Prop where
  accepted : Journal.accepted journal' = Journal.accepted journal
  /-- Nothing above the checkpoint goes. -/
  kept : ∀ slot, checkpoint < slot → Journal.get journal' slot = Journal.get journal slot
  /-- What is still read is what was held. -/
  held : ∀ slot entry, Journal.get journal' slot = some entry →
    Journal.get journal slot = some entry
  first : (Journal.retained journal).1 ≤ checkpoint + 1 →
    (Journal.retained journal').1 ≤ checkpoint + 1

theorem reclaims_reclaimThrough (journal : SegmentedLog) (checkpoint : Nat) :
    Reclaims journal (journal.reclaimThrough checkpoint) checkpoint := by
  obtain ⟨haccepted, first, hfirst, hge, hretained, hread⟩ :=
    journal.reclaimThrough_spec checkpoint
  refine ⟨haccepted, fun slot hlt => ?_, fun slot entry hget => ?_, fun hle => ?_⟩
  · rw [hread]
    split
    · rename_i hbelow
      rcases hfirst with heq | hfirst
      · exact (LawfulJournal.get_lt_first (by omega)).symm
      · omega
    · rfl
  · rw [hread] at hget
    split at hget
    · cases hget
    · exact hget
  · rcases hfirst with heq | hfirst
    · omega
    · omega

namespace Replica

/-- **A reachable replica.** -/
inductive Reached : Replica J → Prop
  | provision {own : Nat} {order : List Nat} {strategy : QuorumStrategy} {journal : J}
      {stability : Stability} {knobs : ViewChangeKnobs} {r : Replica J}
      (h : provision own order strategy journal stability knobs = .ok r) : Reached r
  | step {r : Replica J} (hr : Reached r) (input : TimedInput) : Reached (r.step input).1
  | reclaim {r : Replica J} (hr : Reached r) {journal : J}
      (h : Reclaims r.journal journal r.progress.checkpoint) :
      Reached { r with journal := journal }
  | reopen {r r' : Replica J} (hr : Reached r) {own : Nat} {strategy : QuorumStrategy}
      {stability : Stability} {knobs : ViewChangeKnobs}
      (h : reopenFenced own strategy r.journal r.progress.toProgressData stability knobs =
        .ok r') : Reached r'
  | witnesses {r : Replica J} (hr : Reached r) (witnesses : List Nat) :
      Reached (r.withWitnesses witnesses)

end Replica

end UvrrCore
