import UvrrCore.SegmentedLog

/-!
# The log in place

The two mutations of the segmented log as the bodies of the source run them: checks and assignments
in order on the log itself, so that a refusal would keep what was assigned before it. Every check
stands before the first assignment, so what they do in place is what `accept` and `installSuffix`
return, and a refused call changes nothing.
-/

namespace UvrrCore

namespace LogData

def acceptInPlace (entries : List LogEntry) : ExceptT JournalError (StateM LogData) Unit := do
  match entries.getLast? with
  | none => return
  | some last =>
    let l ← get
    let expected ← liftExcept l.expectedNext
    liftExcept (checkRun expected entries)
    let l ← get
    if l.tailCapacity ≤ entries.length ∧ l.tail = [] then
      modify fun l => l.pushSlab entries
    else
      entries.forM fun entry => modify fun l => l.pushTail entry
    modify fun l => { l with accepted := some last.slot }

def installInPlace (start : Nat) (suffix : List LogEntry) :
    ExceptT JournalError (StateM LogData) Unit := do
  let l ← get
  if start < l.firstSlot then throw (.belowRetention start l.firstSlot)
  let expected ← liftExcept (l.expectedCut start)
  liftExcept (checkRun expected suffix)
  if suffix.isEmpty then throw .emptySuffix
  modify fun l => l.anchored start
  modify fun l =>
    let kept := cutSlabs start l.boundaries l.slabs
    { l with slabs := kept.2, boundaries := kept.1 }
  modify fun l =>
    { l with tail := (l.tail.takeWhile fun entry => decide (entry.slot < start)) ++ suffix }
  modify fun l => { l with accepted := suffix.getLast?.map LogEntry.slot }

/-! ### What they do -/

theorem liftExcept_run {α : Type} (l : LogData) (x : Except JournalError α)
    (f : α → ExceptT JournalError (StateM LogData) Unit) :
    (liftExcept x >>= f).run.run l =
      match x with
      | .ok a => (f a).run.run l
      | .error error => (.error error, l) := by
  cases x with
  | error error => rfl
  | ok a => rfl

theorem get_run (l : LogData) (f : LogData → ExceptT JournalError (StateM LogData) Unit) :
    (get >>= f).run.run l = (f l).run.run l := rfl

/-- The entries go to the tail one after the other. -/
theorem forM_pushTail_run (l : LogData) (entries : List LogEntry)
    (f : PUnit → ExceptT JournalError (StateM LogData) Unit) :
    (entries.forM (fun entry => modify fun l => l.pushTail entry) >>= f).run.run l =
      (f ⟨⟩).run.run (entries.foldl pushTail l) := by
  induction entries generalizing l with
  | nil => rfl
  | cons entry entries ih => exact ih (l.pushTail entry)

/-- **A refused batch changes nothing.** -/
theorem acceptInPlace_run (l : LogData) (entries : List LogEntry) :
    (acceptInPlace entries).run.run l =
      match l.accept entries with
      | .ok l' => (.ok (), l')
      | .error error => (.error error, l) := by
  unfold acceptInPlace accept
  cases entries.getLast? with
  | none => rfl
  | some last =>
    simp only [get_run, liftExcept_run]
    cases l.expectedNext with
    | error error => rfl
    | ok expected =>
      simp only
      cases checkRun expected entries with
      | error error => rfl
      | ok _ =>
        simp only
        by_cases hsealed : l.tailCapacity ≤ entries.length ∧ l.tail = []
        · simp only [if_pos hsealed]
          rfl
        · simp only [if_neg hsealed]
          exact forM_pushTail_run l entries _

/-- **A refused install changes nothing**: every check of the body stands before its first
assignment, so what it does in place is what `installSuffix` returns. -/
theorem installInPlace_run (l : LogData) (start : Nat) (suffix : List LogEntry) :
    (installInPlace start suffix).run.run l =
      match l.installSuffix start suffix with
      | .ok l' => (.ok (), l')
      | .error error => (.error error, l) := by
  unfold installInPlace installSuffix
  rw [get_run]
  by_cases hret : start < l.firstSlot
  · simp only [if_pos hret]
    rfl
  · simp only [if_neg hret, liftExcept_run]
    cases l.expectedCut start with
    | error error => rfl
    | ok expected =>
      simp only
      cases checkRun expected suffix with
      | error error => rfl
      | ok _ =>
        cases hlast : suffix.getLast? with
        | none =>
          rw [List.getLast?_eq_none_iff] at hlast
          subst hlast
          rfl
        | some last =>
          have hne : suffix.isEmpty = false := by
            cases suffix with
            | nil => cases hlast
            | cons entry rest => rfl
          simp only [hne, Bool.false_eq_true, if_false]
          obtain ⟨slabs, boundaries, tail, tailCapacity, firstSlot, accepted⟩ := l
          cases accepted with
          | none => rfl
          | some frontier => rfl

end LogData

end UvrrCore
