import UvrrCore.Journal

/-!
# Messages

The peer messages of the protocol. Every message carries its sender's ballot and one slot in
its header; what the slot means depends on the kind, which the transition rules check
(`headerSlotRole`). The source writes the kind in the header as well as in the body and its
decoder refuses a disagreement, so here the body alone carries it.
-/

namespace UvrrCore

inductive Tag where
  | prepare
  | prepareOk
  | commit
  | startViewChange
  | doViewChange
  | startView
  | plannedViewChange
  | getState
  | newState
  | reincarnation
  | fuse
  | fuseOk
  | commitBatch
  | gossipRequest
deriving DecidableEq, Repr

/-- Whether evidence fences its sender (`ordinary`) or answers a planned switch. -/
inductive EvidenceKind where
  | ordinary
  | planned
deriving DecidableEq, Repr

/-- The operation and slot that established the era a message claims. -/
structure EraProof where
  op : SystemOperation
  committedAt : Nat
deriving DecidableEq, Repr

inductive Body where
  | prepare (entry : LogEntry) (committed : Nat)
  | prepareOk
  | commit (committed : Nat)
  | startViewChange
  | doViewChange (retained : Ballot) (accepted committed : Nat) (suffix : List LogEntry)
      (evidence : EvidenceKind) (eraProof : EraProof)
  | startView (suffix : List LogEntry) (accepted committed : Nat) (eraProof : EraProof)
  | plannedViewChange
  | getState (start : Nat)
  | newState (entries : List LogEntry) (through committed : Nat) (more : Bool)
  | reincarnation (old new committed prepared : Nat)
  | fuse (ops : List SystemOperation)
  | fuseOk (acks : List Nat)
  | commitBatch (committed : List Nat)
  | gossipRequest (prepared committed : Nat)
deriving DecidableEq, Repr

structure Header where
  view : Ballot
  slot : Nat
deriving DecidableEq, Repr

structure Message where
  header : Header
  body : Body
deriving DecidableEq, Repr

def Body.tag : Body → Tag
  | .prepare .. => .prepare
  | .prepareOk => .prepareOk
  | .commit .. => .commit
  | .startViewChange => .startViewChange
  | .doViewChange .. => .doViewChange
  | .startView .. => .startView
  | .plannedViewChange => .plannedViewChange
  | .getState .. => .getState
  | .newState .. => .newState
  | .reincarnation .. => .reincarnation
  | .fuse .. => .fuse
  | .fuseOk .. => .fuseOk
  | .commitBatch .. => .commitBatch
  | .gossipRequest .. => .gossipRequest

def Message.tag (message : Message) : Tag := message.body.tag

end UvrrCore
