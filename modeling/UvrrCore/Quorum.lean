import UvrrCore.Configuration

/-!
# Quorum strategies and their legality gate

A strategy judges whether a list of nodes is a quorum for a role under a configuration. The
core never trusts a strategy: `validateEra` and `validateTransition` enumerate subsets and
refuse a configuration under which two quorums that must meet can miss each other, and
`validatePivot` judges the two quorums of a planned era switch.

`weightedMajority` is the strategy of every host in the repository: more than half of the total
weight, for every role.
-/

namespace UvrrCore

inductive Role where
  | commit
  | viewChange
  | restart
  | fence
deriving DecidableEq, Repr

structure QuorumStrategy where
  isQuorum : Role → Configuration → List Nat → Bool

inductive R2Direction where
  | forward
  | reverse
deriving DecidableEq, Repr

inductive QuorumError where
  | r1Violation (commit viewChange : List Nat)
  | r2Violation (direction : R2Direction) (viewChange commit : List Nat)
  | selfIntersectionViolation (role : Role) (first second : List Nat)
  | fenceRestartViolation (fence restart : List Nat)
  | membershipCapExceeded (cap : Nat)
deriving DecidableEq, Repr

/-! ### Enumerating subsets -/

/-- The members whose bit is set. -/
def membersOf (members : List Nat) (mask : Nat) : List Nat :=
  (members.zipIdx.filter fun member => mask.testBit member.2).map Prod.fst

/-- The mask of all members. -/
def fullMask (members : List Nat) : Nat := 2 ^ members.length - 1

def popcount (mask width : Nat) : Nat := ((List.range width).filter mask.testBit).length

/-- Some subset is a quorum of the first family while its complement is one of the second. -/
def disjointQuorumsExist (strategy : QuorumStrategy) (familyA familyB : Role × Configuration)
    (members : List Nat) : Bool :=
  let full := fullMask members
  (List.range (full + 1)).any fun mask =>
    strategy.isQuorum familyA.1 familyA.2 (membersOf members mask) &&
      strategy.isQuorum familyB.1 familyB.2 (membersOf members (full ^^^ mask))

/-- The smallest disjoint pair of quorums, sizes first, masks second. The thorough pass runs
only when the scan over complements has found that a pair exists. -/
def findDisjointPair (strategy : QuorumStrategy) (familyA familyB : Role × Configuration)
    (members : List Nat) : Option (List Nat × List Nat) :=
  if !disjointQuorumsExist strategy familyA familyB members then none
  else
    let n := members.length
    let full := fullMask members
    (List.range (n + 1)).findSome? fun size =>
      (List.range (full + 1)).findSome? fun mask =>
        if popcount mask n ≠ size then none
        else if !strategy.isQuorum familyA.1 familyA.2 (membersOf members mask) then none
        else
          let complement := full ^^^ mask
          (List.range (n - size + 1)).findSome? fun inner =>
            (List.range (complement + 1)).findSome? fun sub =>
              if sub &&& complement ≠ sub ∨ popcount sub n ≠ inner then none
              else if strategy.isQuorum familyB.1 familyB.2 (membersOf members sub) then
                some (membersOf members mask, membersOf members sub)
              else none

/-! ### The gate -/

def checkCap (config : Configuration) : Except QuorumError Unit :=
  if maxMembers < config.len then .error (.membershipCapExceeded maxMembers) else .ok ()

/-- The three intersections one configuration must have by itself. -/
def validateEra (strategy : QuorumStrategy) (config : Configuration) :
    Except QuorumError Unit := do
  checkCap config
  let members := config.order.map Member.node
  match findDisjointPair strategy (.commit, config) (.viewChange, config) members with
  | some (commit, viewChange) => throw (.r1Violation commit viewChange)
  | none => pure ()
  match findDisjointPair strategy (.viewChange, config) (.viewChange, config) members with
  | some (first, second) => throw (.selfIntersectionViolation .viewChange first second)
  | none => pure ()
  match findDisjointPair strategy (.fence, config) (.restart, config) members with
  | some (fence, restart) => throw (.fenceRestartViolation fence restart)
  | none => pure ()

/-- The two intersections between the configurations of adjacent eras. -/
def validateTransition (strategy : QuorumStrategy) (current next : Configuration) :
    Except QuorumError Unit := do
  checkCap current
  checkCap next
  let members :=
    (((current.order ++ next.order).map Member.node).insertionSort (· ≤ ·)).dedup
  if maxMembers < members.length then throw (.membershipCapExceeded maxMembers)
  match findDisjointPair strategy (.viewChange, current) (.commit, next) members with
  | some (viewChange, commit) => throw (.r2Violation .forward viewChange commit)
  | none => pure ()
  match findDisjointPair strategy (.viewChange, next) (.commit, current) members with
  | some (viewChange, commit) => throw (.r2Violation .reverse viewChange commit)
  | none => pure ()

inductive PivotError where
  | duplicateMember (node : Nat)
  | intersectionNotLeader
  | leaderAbsent
  | qiNotLegal
  | qiiNotLegalCurrent
  | qiiNotLegalNext
deriving DecidableEq, Repr

/-- The two quorums of a pivot meet exactly in the leader, and each is legal where it votes. -/
def validatePivot (strategy : QuorumStrategy) (current next : Configuration) (leader : Nat)
    (pivot : Pivot) : Except PivotError Unit := do
  match Configuration.firstDuplicate [] pivot.qI with
  | some node => throw (.duplicateMember node)
  | none => pure ()
  match Configuration.firstDuplicate [] pivot.qII with
  | some node => throw (.duplicateMember node)
  | none => pure ()
  if !pivot.qI.contains leader || !pivot.qII.contains leader then throw .leaderAbsent
  if pivot.qI.filter pivot.qII.contains ≠ [leader] then throw .intersectionNotLeader
  if !strategy.isQuorum .viewChange current pivot.qI then throw .qiNotLegal
  if !strategy.isQuorum .commit current pivot.qII then throw .qiiNotLegalCurrent
  if !strategy.isQuorum .commit next pivot.qII then throw .qiiNotLegalNext

/-! ### The weighted majority -/

/-- More than half of the configuration's weight, whatever the role. -/
def weightedMajority : QuorumStrategy where
  isQuorum _ config members :=
    match config.weightOfSet members with
    | some weight => decide (config.total / 2 + 1 ≤ weight)
    | none => false

theorem weightedMajority_isQuorum {role : Role} {config : Configuration} {members : List Nat} :
    weightedMajority.isQuorum role config members = true ↔
      ∃ weight, config.weightOfSet members = some weight ∧ config.total / 2 + 1 ≤ weight := by
  unfold weightedMajority
  simp only
  cases config.weightOfSet members with
  | none => simp
  | some weight => simp

end UvrrCore
