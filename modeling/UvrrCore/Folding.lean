import UvrrCore.Replica.Spec

/-!
# The fold of a committed range

What one call of the fold does: `extendRun` says which table a run of system entries leads to,
`foldSlotsThrough_covers` how far a fold gets, and `foldSlotsThrough_split` that a fold up to a
slot may be cut wherever its first part gets to the cut.
-/

namespace UvrrCore

variable {read : Nat → Option LogEntry} {runFuel through : Nat} {current : Ballot} {paced : Bool}

/-! ### One run -/

/-- **What a run folds to**: its batch up to its last slot, or its first entry alone. -/
theorem extendRun_cases {table extended : EraTable} {op : SystemOperation}
    {follow ops : List SystemOperation} {slot last : Nat}
    (h : extendRun table op follow slot through = .ok (extended, ops, last)) :
    (table.extend op slot = .ok extended ∧ ops = [op] ∧ last = slot) ∨
      (follow ≠ [] ∧ slot + follow.length ≤ through ∧
        table.extend (.batch (op :: follow)) slot = .ok extended ∧ ops = op :: follow ∧
        last = slot + follow.length) := by
  unfold extendRun at h
  simp only at h
  split at h
  · split at h
    · rename_i table' htable
      cases h
      exact .inl ⟨htable, rfl, rfl⟩
    · cases h
  · rename_i hfollow
    split at h
    · cases h
    · rename_i hwithin
      split at h
      · rename_i table' htable
        cases h
        exact .inr ⟨by simpa using hfollow, Nat.le_of_not_lt hwithin, htable, rfl, rfl⟩
      · -- the batch is refused: its first entry alone
        split at h
        · rename_i table' htable
          cases h
          exact .inl ⟨htable, rfl, rfl⟩
        · cases h

/-- A run that folds within a range folds the same within a longer one. -/
theorem extendRun_longer {table : EraTable} {op : SystemOperation}
    {follow : List SystemOperation} {slot longer : Nat} {result}
    (hle : through ≤ longer) (h : extendRun table op follow slot through = .ok result) :
    extendRun table op follow slot longer = .ok result := by
  unfold extendRun at h ⊢
  simp only at h ⊢
  split at h
  · rename_i hempty
    rw [if_pos hempty]
    exact h
  · rename_i hfollow
    split at h
    · cases h
    · rename_i hwithin
      rw [if_neg hfollow, if_neg (by omega)]
      exact h

theorem runNominations_isSome (running : Option Ballot) (ops : List SystemOperation) (era : Nat) :
    (runNominations running ops era).isSome = running.isSome := by
  unfold runNominations
  generalize ops.flatMap SystemOperation.riders = riders
  induction riders generalizing running with
  | nil => rfl
  | cons rider riders ih =>
    rw [List.foldl_cons, ih]
    unfold runRider
    split
    · split <;> rfl
    · rfl

/-! ### One call -/

/-- The rest of a fold behind its next slot. -/
theorem foldSlotsThrough_succ {rounds : Nat} {folding : Folding}
    (hlt : folding.covered < through) :
    foldSlotsThrough read runFuel current through paced (rounds + 1) folding =
      match read (folding.covered + 1) with
      | none => .error (.unavailable (folding.covered + 1))
      | some entry =>
        match entry.payload with
        | .operation _ _ =>
          foldSlotsThrough read runFuel current through paced rounds
            { folding with covered := folding.covered + 1 }
        | .system op =>
          match extendRun folding.table op
            (runAfter read entry.era runFuel (folding.covered + 1)) (folding.covered + 1)
            through with
          | .error error => .error error
          | .ok (extended, ops, last) =>
            if paced && windowSpent current folding.running
                (runNominations folding.running ops extended.current.era)
                extended.current.era then
              .ok { folding with stopped := true }
            else
              foldSlotsThrough read runFuel current through paced rounds
                { folding with
                  table := extended, covered := last
                  running := runNominations folding.running ops extended.current.era } := by
  rw [foldSlotsThrough]
  exact if_neg (Nat.not_le.mpr hlt)

theorem foldSlotsThrough_done {rounds : Nat} {folding : Folding}
    (hle : through ≤ folding.covered) :
    foldSlotsThrough read runFuel current through paced rounds folding = .ok folding := by
  cases rounds with
  | zero => rfl
  | succ rounds => rw [foldSlotsThrough, if_pos hle]

/-- What a rule for one step of a fold shows of the whole fold. -/
theorem foldSlotsThrough_induct {P : Folding → Prop}
    (hoperation : ∀ folding entry id payload, P folding → folding.covered < through →
      read (folding.covered + 1) = some entry → entry.payload = .operation id payload →
      P { folding with covered := folding.covered + 1 })
    (hrun : ∀ folding entry op extended ops last, P folding → folding.covered < through →
      read (folding.covered + 1) = some entry → entry.payload = .system op →
      extendRun folding.table op (runAfter read entry.era runFuel (folding.covered + 1))
        (folding.covered + 1) through = .ok (extended, ops, last) →
      (paced && windowSpent current folding.running
        (runNominations folding.running ops extended.current.era) extended.current.era) = false →
      P { folding with
          table := extended, covered := last
          running := runNominations folding.running ops extended.current.era })
    (hstop : ∀ folding, P folding → folding.covered < through → paced = true →
      P { folding with stopped := true })
    {rounds : Nat} {folding folded : Folding} (hstart : P folding)
    (h : foldSlotsThrough read runFuel current through paced rounds folding = .ok folded) :
    P folded := by
  induction rounds generalizing folding with
  | zero =>
    cases h
    exact hstart
  | succ rounds ih =>
    by_cases hle : through ≤ folding.covered
    · rw [foldSlotsThrough_done hle] at h
      cases h
      exact hstart
    · have hlt := Nat.lt_of_not_le hle
      rw [foldSlotsThrough_succ hlt] at h
      split at h
      · cases h
      · rename_i entry hread
        split at h
        · rename_i id payload hpayload
          exact ih (hoperation folding entry id payload hstart hlt hread hpayload) h
        · rename_i op hpayload
          split at h
          · cases h
          · rename_i extended ops last hextend
            split at h
            · rename_i hspent
              cases h
              rw [Bool.and_eq_true] at hspent
              exact hstop folding hstart hlt hspent.1
            · rename_i hspent
              exact ih (hrun folding entry op extended ops last hstart hlt hread hpayload hextend
                (by simpa using hspent)) h

theorem extendRun_last {table extended : EraTable} {op : SystemOperation}
    {follow ops : List SystemOperation} {slot last : Nat}
    (h : extendRun table op follow slot through = .ok (extended, ops, last))
    (hslot : slot ≤ through) : slot ≤ last ∧ last ≤ through := by
  rcases extendRun_cases h with ⟨-, -, rfl⟩ | ⟨-, hwithin, -, -, rfl⟩
  · exact ⟨Nat.le_refl _, hslot⟩
  · exact ⟨Nat.le_add_right _ _, hwithin⟩

/-- **How far a fold gets**: never back, never beyond the range, and to its end unless the era
window stopped it. -/
theorem foldSlotsThrough_covers {rounds : Nat} {folding folded : Folding}
    (h : foldSlotsThrough read runFuel current through paced rounds folding = .ok folded) :
    folding.covered ≤ folded.covered ∧ (folding.covered ≤ through → folded.covered ≤ through) := by
  refine foldSlotsThrough_induct (P := fun f => folding.covered ≤ f.covered ∧
    (folding.covered ≤ through → f.covered ≤ through)) ?_ ?_ ?_ ⟨Nat.le_refl _, id⟩ h
  · intro f entry id payload hf hlt _ _
    exact ⟨Nat.le_succ_of_le hf.1, fun _ => hlt⟩
  · intro f entry op extended ops last hf hlt _ _ hextend _
    obtain ⟨hlow, hhigh⟩ := extendRun_last hextend hlt
    exact ⟨by show _ ≤ last; omega, fun _ => hhigh⟩
  · intro f hf _ _
    exact hf

/-- With rounds enough a fold that is not stopped gets to the end of its range. -/
theorem foldSlotsThrough_complete {rounds : Nat} {folding folded : Folding}
    (hrounds : through - folding.covered ≤ rounds)
    (h : foldSlotsThrough read runFuel current through paced rounds folding = .ok folded)
    (hstopped : folded.stopped = false) : through ≤ folded.covered := by
  induction rounds generalizing folding with
  | zero =>
    cases h
    omega
  | succ rounds ih =>
    by_cases hle : through ≤ folding.covered
    · rw [foldSlotsThrough_done hle] at h
      cases h
      exact hle
    · have hlt := Nat.lt_of_not_le hle
      rw [foldSlotsThrough_succ hlt] at h
      split at h
      · cases h
      · split at h
        · exact ih (by show through - (folding.covered + 1) ≤ rounds; omega) h
        · split at h
          · cases h
          · rename_i extended ops last hextend
            split at h
            · cases h
              cases hstopped
            · have hlast := (extendRun_last hextend hlt).1
              exact ih (by show through - last ≤ rounds; omega) h

/-- A fold that is stopped is stopped short of its range. -/
theorem foldSlotsThrough_stopped {rounds : Nat} {folding folded : Folding}
    (h : foldSlotsThrough read runFuel current through paced rounds folding = .ok folded)
    (hstart : folding.stopped = false) (hstopped : folded.stopped = true) :
    folded.covered < through := by
  induction rounds generalizing folding with
  | zero =>
    cases h
    rw [hstart] at hstopped
    cases hstopped
  | succ rounds ih =>
    by_cases hle : through ≤ folding.covered
    · rw [foldSlotsThrough_done hle] at h
      cases h
      rw [hstart] at hstopped
      cases hstopped
    · have hlt := Nat.lt_of_not_le hle
      rw [foldSlotsThrough_succ hlt] at h
      split at h
      · cases h
      · split at h
        · exact ih h hstart
        · split at h
          · cases h
          · split at h
            · cases h
              exact hlt
            · exact ih h hstart

/-- Nominations move a running ballot and make none. -/
theorem foldSlotsThrough_isSome {rounds : Nat} {folding folded : Folding}
    (h : foldSlotsThrough read runFuel current through paced rounds folding = .ok folded) :
    folded.running.isSome = folding.running.isSome :=
  foldSlotsThrough_induct (P := fun f => f.running.isSome = folding.running.isSome)
    (fun _ _ _ _ hf _ _ _ => hf)
    (fun _ _ _ _ _ _ hf _ _ _ _ _ => (runNominations_isSome _ _ _).trans hf)
    (fun _ hf _ _ => hf) rfl h

/-- A fold starts unstopped and only the era window stops it. -/
theorem foldSlotsThrough_unpaced {rounds : Nat} {folding folded : Folding}
    (h : foldSlotsThrough read runFuel current through false rounds folding = .ok folded) :
    folded.stopped = folding.stopped := by
  refine foldSlotsThrough_induct (P := fun f => f.stopped = folding.stopped)
    (fun f _ _ _ hf _ _ _ => hf) (fun f _ _ _ _ _ hf _ _ _ _ _ => hf)
    (fun f _ _ hpaced => by cases hpaced) rfl h

/-! ### Cutting a fold -/

theorem foldSlotsThrough_rounds {rounds : Nat} {folding : Folding}
    (hrounds : through - folding.covered ≤ rounds) :
    foldSlotsThrough read runFuel current through paced rounds folding =
      foldSlotsThrough read runFuel current through paced (through - folding.covered) folding := by
  induction rounds using Nat.strong_induction_on generalizing folding with
  | _ rounds ih =>
    by_cases hle : through ≤ folding.covered
    · rw [foldSlotsThrough_done hle, foldSlotsThrough_done hle]
    · have hlt := Nat.lt_of_not_le hle
      -- both sides take the same step; what is left is shorter, whatever the step was
      have hnext : ∀ next : Folding, folding.covered < next.covered → ∀ n, n + 1 ≤ rounds →
          through - (folding.covered + 1) ≤ n →
          foldSlotsThrough read runFuel current through paced n next =
            foldSlotsThrough read runFuel current through paced (through - next.covered) next :=
        fun next hnext n hn hn' => ih n (by omega) (by omega)
      obtain ⟨n, rfl⟩ := Nat.exists_eq_add_of_le' (show 1 ≤ rounds by omega)
      obtain ⟨m, hm⟩ := Nat.exists_eq_add_of_le' (show 1 ≤ through - folding.covered by omega)
      rw [hm, foldSlotsThrough_succ hlt, foldSlotsThrough_succ hlt]
      split
      · rfl
      · split
        · rw [hnext _ (Nat.lt_succ_self _) n (by omega) (by omega),
            hnext _ (Nat.lt_succ_self _) m (by omega) (by omega)]
        · split
          · rfl
          · rename_i extended ops last hextend
            have hlast := (extendRun_last hextend hlt).1
            split
            · rfl
            · rw [hnext _ (by show _ < last; omega) n (by omega) (by omega),
                hnext _ (by show _ < last; omega) m (by omega) (by omega)]

/-- The published ballot matters to a fold only where no ballot is running. -/
theorem foldSlotsThrough_current {current' : Ballot} {rounds : Nat} {folding : Folding}
    (hsame : folding.running = none → current' = current) :
    foldSlotsThrough read runFuel current' through paced rounds folding =
      foldSlotsThrough read runFuel current through paced rounds folding := by
  induction rounds generalizing folding with
  | zero => rfl
  | succ rounds ih =>
    by_cases hle : through ≤ folding.covered
    · rw [foldSlotsThrough_done hle, foldSlotsThrough_done hle]
    · have hlt := Nat.lt_of_not_le hle
      rw [foldSlotsThrough_succ hlt, foldSlotsThrough_succ hlt]
      have hwindow : ∀ nominated established,
          windowSpent current' folding.running nominated established =
            windowSpent current folding.running nominated established := by
        intro nominated established
        cases hrunning : folding.running with
        | none => rw [hsame hrunning]
        | some ballot => rfl
      have hnominated : ∀ ops era, runNominations folding.running ops era = none →
          current' = current := by
        intro ops era hnone
        have hsome := runNominations_isSome folding.running ops era
        rw [hnone] at hsome
        exact hsame (Option.not_isSome_iff_eq_none.mp (by rw [← hsome]; simp))
      split
      · rfl
      · split
        · exact ih hsame
        · split
          · rfl
          · rw [hwindow]
            split
            · rfl
            · exact ih (hnominated _ _)

/-- **A fold may be cut where its first part gets to the cut**: the whole fold is the fold of
the rest from there. -/
theorem foldSlotsThrough_split {current' : Ballot} {cut : Nat} {folding middle : Folding}
    (hcut : cut ≤ through)
    (hfirst : foldSlotsThrough read runFuel current cut paced (cut - folding.covered) folding =
      .ok middle)
    (hcovered : middle.covered = cut)
    (hsame : middle.running = none → current' = current) :
    foldSlotsThrough read runFuel current through paced (through - folding.covered) folding =
      foldSlotsThrough read runFuel current' through paced (through - cut) middle := by
  generalize hrounds : cut - folding.covered = rounds at hfirst
  induction rounds using Nat.strong_induction_on generalizing folding with
  | _ rounds ih =>
    by_cases hle : cut ≤ folding.covered
    · rw [foldSlotsThrough_done hle] at hfirst
      cases hfirst
      rw [foldSlotsThrough_current hsame, hcovered]
    · have hlt := Nat.lt_of_not_le hle
      have hlt' : folding.covered < through := by omega
      obtain ⟨n, rfl⟩ := Nat.exists_eq_add_of_le' (show 1 ≤ rounds by omega)
      obtain ⟨m, hm⟩ := Nat.exists_eq_add_of_le' (show 1 ≤ through - folding.covered by omega)
      -- one step of the first part is a step of the whole
      have hnext : ∀ next : Folding, folding.covered < next.covered →
          foldSlotsThrough read runFuel current cut paced n next = .ok middle →
          foldSlotsThrough read runFuel current through paced m next =
            foldSlotsThrough read runFuel current' through paced (through - cut) middle := by
        intro next hnext h
        rw [foldSlotsThrough_rounds (by omega)] at h
        rw [foldSlotsThrough_rounds (by omega)]
        exact ih (cut - next.covered) (by omega) rfl h
      rw [foldSlotsThrough_succ hlt] at hfirst
      rw [hm, foldSlotsThrough_succ hlt']
      split at hfirst
      · cases hfirst
      · rename_i entry hread
        split at hfirst
        · exact hnext _ (Nat.lt_succ_self _) hfirst
        · rename_i op hpayload
          split at hfirst
          · cases hfirst
          · rename_i extended ops last hextend
            have hlast := (extendRun_last hextend hlt).1
            simp only [extendRun_longer hcut hextend]
            split at hfirst
            · cases hfirst
              exact absurd hcovered (by show folding.covered ≠ cut; omega)
            · rename_i hspent
              rw [if_neg hspent]
              exact hnext _ (by show _ < last; omega) hfirst

/-! ### The rest of a fold -/

/-- A slot that holds a client operation. -/
def ClientAt (read : Nat → Option LogEntry) (slot : Nat) : Prop :=
  ∃ entry id payload, read slot = some entry ∧ entry.payload = .operation id payload

/-- The fold of what is left of the range. -/
def foldRest (read : Nat → Option LogEntry) (runFuel : Nat) (current : Ballot) (through : Nat)
    (paced : Bool) (folding : Folding) : Except CommitFold Folding :=
  foldSlotsThrough read runFuel current through paced (through - folding.covered) folding

theorem foldRest_operation {folding : Folding} (hlt : folding.covered < through)
    (hclient : ClientAt read (folding.covered + 1)) :
    foldRest read runFuel current through paced folding =
      foldRest read runFuel current through paced
        { folding with covered := folding.covered + 1 } := by
  obtain ⟨entry, id, payload, hread, hpayload⟩ := hclient
  unfold foldRest
  obtain ⟨m, hm⟩ := Nat.exists_eq_add_of_le' (show 1 ≤ through - folding.covered by omega)
  rw [hm, foldSlotsThrough_succ hlt]
  simp only [hread, hpayload]
  rw [show m = through - (folding.covered + 1) by omega]

/-- Client operations only move the frontier. -/
theorem foldRest_operations {folding : Folding} (upTo : Nat) (hle : folding.covered ≤ upTo)
    (hupTo : upTo ≤ through)
    (hclient : ∀ slot, folding.covered < slot → slot ≤ upTo → ClientAt read slot) :
    foldRest read runFuel current through paced folding =
      foldRest read runFuel current through paced { folding with covered := upTo } := by
  obtain ⟨left, rfl⟩ := Nat.exists_eq_add_of_le hle
  induction left with
  | zero => rfl
  | succ left ih =>
    rw [ih (Nat.le_add_right _ _) (by omega) fun slot hlow hhigh => hclient slot hlow (by omega)]
    have hstep : foldRest read runFuel current through paced
        { folding with covered := folding.covered + left } = _ :=
      foldRest_operation (by show folding.covered + left < through; omega)
        (hclient _ (by show folding.covered < folding.covered + left + 1; omega) (by
          show folding.covered + left + 1 ≤ folding.covered + (left + 1)
          omega))
    exact hstep

theorem foldRest_run {folding : Folding} {entry : LogEntry} {op : SystemOperation}
    (hlt : folding.covered < through) (hread : read (folding.covered + 1) = some entry)
    (hpayload : entry.payload = .system op) :
    foldRest read runFuel current through paced folding =
      match extendRun folding.table op
        (runAfter read entry.era runFuel (folding.covered + 1)) (folding.covered + 1) through with
      | .error error => .error error
      | .ok (extended, ops, last) =>
        if paced && windowSpent current folding.running
            (runNominations folding.running ops extended.current.era) extended.current.era then
          .ok { folding with stopped := true }
        else
          foldRest read runFuel current through paced
            { folding with
              table := extended, covered := last
              running := runNominations folding.running ops extended.current.era } := by
  unfold foldRest
  obtain ⟨m, hm⟩ := Nat.exists_eq_add_of_le' (show 1 ≤ through - folding.covered by omega)
  rw [hm, foldSlotsThrough_succ hlt]
  simp only [hread, hpayload]
  cases hextend : extendRun folding.table op
    (runAfter read entry.era runFuel (folding.covered + 1)) (folding.covered + 1) through with
  | error error => rfl
  | ok result =>
    obtain ⟨extended, ops, last⟩ := result
    have hlast := (extendRun_last hextend hlt).1
    have hrest : foldSlotsThrough read runFuel current through paced m
        { folding with
          table := extended, covered := last
          running := runNominations folding.running ops extended.current.era } = _ :=
      foldSlotsThrough_rounds (by show through - last ≤ m; omega)
    simp only [hrest]

/-! ### The fold of a commit -/

namespace Replica

variable {J : Type} [Journal J]

/-- The fold as `foldCommitted` starts it. -/
def folding (r : Replica J) (start : Nat) : Folding where
  table := r.progress.config
  covered := start
  running := if r.progress.status = .normal then some r.progress.current else none
  stopped := false

theorem foldCommitted_ok {r : Replica J} {overlay : List LogEntry} {start through : Nat}
    {paced : Bool} {folded : FoldedCommit}
    (h : r.foldCommitted overlay start through paced = .ok folded) :
    ∃ end_, foldSlotsThrough (merged r.journal overlay) (r.runFuel overlay) r.progress.current
        through paced (through - start) (r.folding start) = .ok end_ ∧
      folded = { config := end_.table, covered := end_.covered, stopped := end_.stopped
                 bump := end_.running.filter fun view => view != r.progress.current } := by
  unfold foldCommitted at h
  simp only at h
  split at h
  · cases h
  · rename_i end_ hend
    cases h
    exact ⟨end_, hend, rfl⟩

theorem foldCommitted_eq (r : Replica J) (overlay : List LogEntry) (start through : Nat)
    (paced : Bool) :
    r.foldCommitted overlay start through paced =
      (foldSlotsThrough (merged r.journal overlay) (r.runFuel overlay) r.progress.current through
        paced (through - start) (r.folding start)).map fun end_ =>
          { config := end_.table, covered := end_.covered, stopped := end_.stopped
            bump := end_.running.filter fun view => view != r.progress.current } := by
  unfold foldCommitted folding
  simp only
  split
  · rename_i error herror
    rw [herror]
    rfl
  · rename_i end_ hend
    rw [hend]
    rfl

end Replica

end UvrrCore
