import UvrrCore.Viewstamped.Model

/-!
# Agreement of viewstamped replication

What every reachable state keeps (`Inv`), and from it that what is chosen at one position is the
same under every ballot (`Inv.chosen_agree`).

The states only grow (`Grows`): histories are extended, pledges rise, and what a node
acknowledged under a ballot it has left stands. So whatever may still be chosen later may be
chosen now, and a fact about a log that names only such positions stays true of it.
-/

namespace Viewstamped

variable {N β V : Type} [LinearOrder β] {S : Setting N β V}

open State

/-! ### Growth -/

/-- What every step keeps of the record. -/
structure Grows (a a' : State N β V) : Prop where
  hist : ∀ b, a.hist b <+: a'.hist b
  started : a.started ⊆ a'.started
  opening : ∀ b ∈ a.started, a'.opening b = a.opening b
  pledge : ∀ n, a.pledge n ≤ a'.pledge n
  acked : ∀ n b, a.acked n b ≤ a'.acked n b
  frozen : ∀ n b, b < a.pledge n → a'.acked n b = a.acked n b
  reports : a.reports ⊆ a'.reports
  seen : a.seen ⊆ a'.seen

theorem Grows.refl (a : State N β V) : Grows a a where
  hist _ := List.prefix_rfl
  started := Set.Subset.rfl
  opening _ _ := rfl
  pledge _ := le_rfl
  acked _ _ := le_rfl
  frozen _ _ _ := rfl
  reports := Set.Subset.rfl
  seen := Set.Subset.rfl

theorem Grows.trans {a a' a'' : State N β V} (h : Grows a a') (h' : Grows a' a'') :
    Grows a a'' where
  hist b := (h.hist b).trans (h'.hist b)
  started := h.started.trans h'.started
  opening b hb := (h'.opening b (h.started hb)).trans (h.opening b hb)
  pledge n := (h.pledge n).trans (h'.pledge n)
  acked n b := (h.acked n b).trans (h'.acked n b)
  frozen n b hb := (h'.frozen n b (hb.trans_le (h.pledge n))).trans (h.frozen n b hb)
  reports := h.reports.trans h'.reports
  seen := h.seen.trans h'.seen

theorem chosen_mono {a a' : State N β V} (h : Grows a a') {b : β} {s : ℕ}
    (hc : a.Chosen S b s) : a'.Chosen S b s := by
  obtain ⟨Q, hQ, hall⟩ := hc
  exact ⟨Q, hQ, fun n hn => (hall n hn).trans_le (h.acked n b)⟩

/-- Nothing new comes to be choosable. -/
theorem choosable_anti {a a' : State N β V} (h : Grows a a') {b : β} {s : ℕ}
    (hc : a'.Choosable S b s) : a.Choosable S b s := by
  obtain ⟨Q, hQ, hall⟩ := hc
  refine ⟨Q, hQ, fun n hn => ?_⟩
  by_cases hle : a.pledge n ≤ b
  · exact Or.inr hle
  · rw [not_le] at hle
    rcases hall n hn with hacked | hpledge
    · rw [h.frozen n b hle] at hacked
      exact Or.inl hacked
    · exact absurd ((h.pledge n).trans hpledge) (not_le.mpr hle)

theorem Chosen.choosable {a : State N β V} {b : β} {s : ℕ} (hc : a.Chosen S b s) :
    a.Choosable S b s := by
  obtain ⟨Q, hQ, hall⟩ := hc
  exact ⟨Q, hQ, fun n hn => Or.inl (hall n hn)⟩

/-! ### What a log says -/

/-- **A sound log.** It holds whatever may be chosen under a lower ballot than its own, agrees
with what may be chosen under its own, and is chosen as far as it is known to be committed. -/
structure Good (S : Setting N β V) (a : State N β V) (σ : Snapshot β V) : Prop where
  started : σ.retained ∈ a.started
  below : ∀ b s, a.Choosable S b s → b < σ.retained → Agree σ.log (a.hist b) s
  level : ∀ s, a.Choosable S σ.retained s → s < σ.log.length →
    Agree σ.log (a.hist σ.retained) s
  committed : ∀ s < σ.committed, ∃ b ≤ σ.retained, a.Chosen S b s ∧ Agree σ.log (a.hist b) s
  serving : σ.serving → σ.log <+: a.hist σ.retained
  admits : ∀ {i : ℕ} {v : V}, σ.log[i]? = some v → S.admits i v

theorem Good.mono {a a' : State N β V} {σ : Snapshot β V} (h : Grows a a') (hσ : Good S a σ) :
    Good S a' σ where
  started := h.started hσ.started
  below b s hc hlt := (hσ.below b s (choosable_anti h hc) hlt).mono_right (h.hist b)
  level s hc hlt := (hσ.level s (choosable_anti h hc) hlt).mono_right (h.hist _)
  committed s hs := by
    obtain ⟨b, hle, hchosen, hagree⟩ := hσ.committed s hs
    exact ⟨b, hle, chosen_mono h hchosen, hagree.mono_right (h.hist b)⟩
  serving hs := (hσ.serving hs).trans (h.hist _)
  admits := hσ.admits

/-- What may be chosen under a ballot not above the log's is what the log holds, as far as it
reaches. -/
theorem Good.agree {a : State N β V} {σ : Snapshot β V} (hσ : Good S a σ) {b : β} {s : ℕ}
    (hc : a.Choosable S b s) (hle : b ≤ σ.retained) (hs : s < σ.log.length) :
    Agree σ.log (a.hist b) s := by
  rcases hle.lt_or_eq with hlt | rfl
  · exact hσ.below b s hc hlt
  · exact hσ.level s hc hs

/-- A sound report: its node had entered the target, and its log reaches as far as the node ever
acknowledged the log's ballot. -/
structure Sound (S : Setting N β V) (a : State N β V) (ρ : Report N β V) : Prop where
  pledge : ρ.target ≤ a.pledge ρ.node
  below : ρ.snapshot.retained < ρ.target
  retained : ∀ b < ρ.target, a.acked ρ.node b ≠ 0 → b ≤ ρ.snapshot.retained
  acked : a.acked ρ.node ρ.snapshot.retained ≤ ρ.snapshot.log.length
  good : Good S a ρ.snapshot

theorem Sound.mono {a a' : State N β V} {ρ : Report N β V} (h : Grows a a')
    (hρ : Sound S a ρ) : Sound S a' ρ where
  pledge := hρ.pledge.trans (h.pledge _)
  below := hρ.below
  retained b hb hacked := by
    rw [h.frozen _ _ (hb.trans_le hρ.pledge)] at hacked
    exact hρ.retained b hb hacked
  acked := by
    rw [h.frozen _ _ (hρ.below.trans_le hρ.pledge)]
    exact hρ.acked
  good := hρ.good.mono h

/-! ### The invariant -/

/-- What every reachable state keeps of the logs. -/
structure Core (S : Setting N β V) (a : State N β V) : Prop where
  good : ∀ n, Good S a (a.nodes n).snapshot
  retained_le : ∀ n, (a.nodes n).retained ≤ (a.nodes n).current
  current_le : ∀ n, (a.nodes n).current ≤ a.pledge n
  acked_le : ∀ n b, a.acked n b ≤ (a.hist b).length
  acked_pledge : ∀ n b, a.acked n b ≠ 0 → b ≤ a.pledge n
  unstarted : ∀ b ∉ a.started, a.hist b = []
  opening : ∀ b ∈ a.started, a.opening b <+: a.hist b
  /-- **A ballot opens with whatever may be chosen under a lower one.** -/
  holds : ∀ b ∈ a.started, ∀ b' s, a.Choosable S b' s → b' < b →
    Agree (a.opening b) (a.hist b') s
  first_le : ∀ b ∈ a.started, S.first ≤ b
  first_started : S.first ∈ a.started
  first_opening : a.opening S.first = S.genesis
  first_acked : ∀ n, S.genesis.length ≤ a.acked n S.first
  reports : ∀ ρ ∈ a.reports, Sound S a ρ
  seen : ∀ σ ∈ a.seen, Good S a σ
  present : ∀ n, (a.nodes n).snapshot ∈ a.seen
  hist_admits : ∀ {b : β} {i : ℕ} {v : V}, (a.hist b)[i]? = some v → S.admits i v

/-- **What every reachable state keeps.** -/
structure Inv (S : Setting N β V) (a : State N β V) : Prop extends Core S a where
  /-- A primary acknowledges all of its ballot's log. -/
  leads : ∀ b ∈ a.started, a.acked (S.primary b) b = (a.hist b).length

section Facts

variable {a : State N β V}

theorem Core.genesis_chosen (h : Core S a) {s : ℕ} (hs : s < S.genesis.length) :
    a.Chosen S S.first s :=
  ⟨Set.univ, S.quorum_univ, fun n _ => hs.trans_le (h.first_acked n)⟩

theorem Core.started_of_acked (h : Core S a) {n : N} {b : β} {s : ℕ} (hs : s < a.acked n b) :
    b ∈ a.started := by
  by_contra hnot
  have hlen := h.acked_le n b
  rw [h.unstarted b hnot, List.length_nil] at hlen
  omega

theorem Core.started_of_chosen (h : Core S a) {b : β} {s : ℕ} (hc : a.Chosen S b s) :
    b ∈ a.started := by
  obtain ⟨Q, hQ, hall⟩ := hc
  obtain ⟨n, hn, -⟩ := S.quorum_meet hQ hQ
  exact h.started_of_acked (hall n hn)

/-- A higher ballot agrees with whatever may be chosen under a lower one. -/
theorem Core.hist_agree (h : Core S a) {b b' : β} {s : ℕ} (hb : b ∈ a.started)
    (hc : a.Choosable S b' s) (hlt : b' < b) : Agree (a.hist b) (a.hist b') s :=
  ((h.holds b hb b' s hc hlt).symm.mono_right (h.opening b hb)).symm

/-- **Agreement**: what is chosen at a position is the same under every ballot. -/
theorem Core.chosen_agree (h : Core S a) {b b' : β} {s : ℕ} (hc : a.Chosen S b s)
    (hc' : a.Chosen S b' s) : Agree (a.hist b) (a.hist b') s := by
  rcases lt_trichotomy b b' with hlt | rfl | hlt
  · exact (h.hist_agree (h.started_of_chosen hc') (Chosen.choosable hc) hlt).symm
  · obtain ⟨Q, hQ, hall⟩ := hc
    obtain ⟨n, hn, -⟩ := S.quorum_meet hQ hQ
    exact agree_self ((hall n hn).trans_le (h.acked_le n b))
  · exact h.hist_agree (h.started_of_chosen hc) (Chosen.choosable hc') hlt

/-- What is chosen agrees with what may be chosen, once the latter's ballot has begun. -/
theorem Core.chosen_choosable_agree (h : Core S a) {b b' : β} {s : ℕ} (hc : a.Chosen S b s)
    (hb' : b' ∈ a.started) (hs : s < (a.hist b').length) (hc' : a.Choosable S b' s) :
    Agree (a.hist b) (a.hist b') s := by
  rcases lt_trichotomy b b' with hlt | rfl | hlt
  · exact (h.hist_agree hb' (Chosen.choosable hc) hlt).symm
  · exact agree_self hs
  · exact h.hist_agree (h.started_of_chosen hc) hc' hlt

theorem Good.committed_le {σ : Snapshot β V} (hσ : Good S a σ) :
    σ.committed ≤ σ.log.length := by
  by_contra hlt
  rw [not_le] at hlt
  obtain ⟨b, -, -, hagree⟩ := hσ.committed _ hlt
  exact absurd hagree.lt_left (lt_irrefl _)

/-- A node that is whole and serves has the whole log of a ballot it is the primary of. -/
theorem Inv.primary_log (h : Inv S a) {p : N} (hwhole : a.Whole p)
    (hserving : (a.nodes p).retained = (a.nodes p).current)
    (hprimary : S.primary (a.nodes p).retained = p) :
    (a.nodes p).log = a.hist (a.nodes p).retained := by
  have hlog : (a.nodes p).log <+: a.hist (a.nodes p).retained := (h.good p).serving hserving
  have hlead := h.leads _ (h.good p).started
  have hacked := hwhole.acked
  rw [show (a.nodes p).snapshot.retained = (a.nodes p).retained from rfl, hprimary] at hlead
  exact hlog.eq_of_length_le (by omega)

/-- A ballot that a whole node has left its log for has not begun, if it is its primary. -/
theorem Inv.fresh (h : Inv S a) {p : N} (hwhole : a.Whole p)
    (hprimary : S.primary (a.nodes p).current = p)
    (hleft : (a.nodes p).retained < (a.nodes p).current) :
    (a.nodes p).current ∉ a.started := by
  intro hstarted
  have hlt : S.first < (a.nodes p).current :=
    (h.first_le _ (h.good p).started).trans_lt hleft
  have hpos : 0 < S.genesis.length := List.length_pos_iff.mpr S.genesis_ne
  have hagree := h.hist_agree hstarted (Chosen.choosable (h.genesis_chosen hpos)) hlt
  have hlead := h.leads _ hstarted
  rw [hprimary] at hlead
  have hlen := hagree.lt_left
  exact absurd (hwhole.retained _ (by omega)) (not_le.mpr hleft)

/-! ### Histories -/

theorem grows_append (b : β) (v : V) : Grows a (a.append b v) where
  hist b' := by
    by_cases hb : b' = b
    · subst hb
      simp [append]
    · simp [append, hb]
  started := Set.Subset.rfl
  opening _ _ := rfl
  pledge _ := le_rfl
  acked _ _ := le_rfl
  frozen _ _ _ := rfl
  reports := Set.Subset.rfl
  seen := Set.Subset.rfl

theorem Core.append (h : Core S a) {b : β} (hb : b ∈ a.started) {v : V}
    (hadmits : S.admits (a.hist b).length v) : Core S (a.append b v) := by
  have hgrows := grows_append (a := a) b v
  exact
    { good := fun m => (h.good m).mono hgrows
      retained_le := h.retained_le
      current_le := h.current_le
      acked_le := fun m b' => (h.acked_le m b').trans (hgrows.hist b').length_le
      acked_pledge := h.acked_pledge
      unstarted := fun b' hb' => by
        have hne : b' ≠ b := fun heq => hb' (heq ▸ hb)
        simpa [State.append, hne] using h.unstarted b' hb'
      opening := fun b' hb' => (h.opening b' hb').trans (hgrows.hist b')
      holds := fun b' hb' b'' s hc hlt =>
        (h.holds b' hb' b'' s (choosable_anti hgrows hc) hlt).mono_right (hgrows.hist b'')
      first_le := h.first_le
      first_started := h.first_started
      first_opening := h.first_opening
      first_acked := h.first_acked
      reports := fun ρ hρ => (h.reports ρ hρ).mono hgrows
      seen := fun σ hσ => (h.seen σ hσ).mono hgrows
      present := h.present
      hist_admits := fun {b' i w} hw => by
        by_cases heq : b' = b
        · subst heq
          simp only [State.append, Function.update_self] at hw
          rw [List.getElem?_append] at hw
          split at hw
          · exact h.hist_admits hw
          · rename_i hge
            obtain ⟨hlt, rfl⟩ := List.getElem?_eq_some_iff.mp hw
            simp only [List.length_singleton] at hlt
            obtain rfl : i = (a.hist b').length := by omega
            simpa using hadmits
        · exact h.hist_admits (b := b') (by simpa [State.append, heq] using hw) }

/-- Only a ballot that has not begun is opened. -/
theorem grows_start (h : Core S a) {b : β} (hb : b ∉ a.started) (log : List V) :
    Grows a (a.start b log) where
  hist b' := by
    by_cases heq : b' = b
    · subst heq
      simp [start, h.unstarted b' hb]
    · simp [start, heq]
  started := Set.subset_insert _ _
  opening b' hb' := by
    have hne : b' ≠ b := fun heq => hb (heq ▸ hb')
    simp [start, hne]
  pledge _ := le_rfl
  acked _ _ := le_rfl
  frozen _ _ _ := rfl
  reports := Set.Subset.rfl
  seen := Set.Subset.rfl

/-- A ballot may open with any log that holds whatever may be chosen below it. -/
theorem Core.start (h : Core S a) {b : β} (hb : b ∉ a.started) (hfirst : S.first ≤ b)
    {log : List V} (hadmits : ∀ {i : ℕ} {v : V}, log[i]? = some v → S.admits i v)
    (hholds : ∀ b' s, a.Choosable S b' s → b' < b → Agree log (a.hist b') s) :
    Core S (a.start b log) := by
  have hgrows := grows_start h hb log
  have hne : ∀ b' ∈ a.started, b' ≠ b := fun b' hb' heq => hb (heq ▸ hb')
  refine
    { good := fun m => (h.good m).mono hgrows
      retained_le := h.retained_le
      current_le := h.current_le
      acked_le := fun m b' => (h.acked_le m b').trans (hgrows.hist b').length_le
      acked_pledge := h.acked_pledge
      unstarted := fun b' hb' => ?_
      opening := fun b' hb' => ?_
      holds := fun b' hb' b'' s hc hlt => ?_
      first_le := fun b' hb' => ?_
      first_started := hgrows.started h.first_started
      first_opening := (hgrows.opening _ h.first_started).trans h.first_opening
      first_acked := h.first_acked
      reports := fun ρ hρ => (h.reports ρ hρ).mono hgrows
      seen := fun σ hσ => (h.seen σ hσ).mono hgrows
      present := h.present
      hist_admits := fun {b' i v} hv => ?_ }
  · rw [show (a.start b log).started = insert b a.started from rfl, Set.mem_insert_iff,
      not_or] at hb'
    simpa [State.start, hb'.1] using h.unstarted b' hb'.2
  · rcases hb' with rfl | hb'
    · simp [State.start]
    · simpa [State.start, hne b' hb'] using h.opening b' hb'
  · have hold := choosable_anti hgrows hc
    rcases hb' with rfl | hb'
    · simpa [State.start] using (hholds b'' s hold hlt).mono_right (hgrows.hist b'')
    · rw [hgrows.opening b' hb']
      exact (h.holds b' hb' b'' s hold hlt).mono_right (hgrows.hist b'')
  · rcases hb' with rfl | hb'
    · exact hfirst
    · exact h.first_le b' hb'
  · by_cases heq : b' = b
    · subst heq
      exact hadmits (by simpa [State.start] using hv)
    · exact h.hist_admits (b := b') (by simpa [State.start, heq] using hv)

/-! ### What the logs of the steps hold -/

/-- A serving node's log may be extended along its ballot's. -/
theorem Good.extend (h : Core S a) {σ : Snapshot β V} (hσ : Good S a σ) {log : List V}
    (hmore : σ.log <+: log) (hlog : log <+: a.hist σ.retained) : Good S a { σ with log := log } where
  started := hσ.started
  below b s hc hlt := (hσ.below b s hc hlt).mono_left hmore
  level _ _ hs := agree_of_segment hlog hs
  committed s hs := by
    obtain ⟨b, hle, hchosen, hagree⟩ := hσ.committed s hs
    exact ⟨b, hle, hchosen, hagree.mono_left hmore⟩
  serving _ := hlog
  admits hv := h.hist_admits (getElem?_of_segment hlog hv)

theorem Good.learn {σ : Snapshot β V} (hσ : Good S a σ) {k : ℕ} (hlen : k ≤ σ.log.length)
    (hchosen : ∀ s < k, ∃ b ≤ σ.retained, a.Chosen S b s) :
    Good S a { σ with committed := k } where
  started := hσ.started
  below := hσ.below
  level := hσ.level
  committed s hs := by
    obtain ⟨b, hle, hc⟩ := hchosen s hs
    exact ⟨b, hle, hc, hσ.agree (Chosen.choosable hc) hle (hs.trans_le hlen)⟩
  serving := hσ.serving
  admits := hσ.admits

/-- Entries of a log of the same or a higher ballot may stand in a log, if it gets no shorter. -/
theorem Good.adopt {σ τ : Snapshot β V} (hσ : Good S a σ) (hτ : Good S a τ) {log : List V}
    (hretained : σ.retained ≤ τ.retained) (hlen : σ.log.length ≤ log.length)
    (hfrom : ∀ s < log.length, log[s]? = σ.log[s]? ∨ log[s]? = τ.log[s]?) :
    Good S a { σ with log := log, serving := False } := by
  have hagree : ∀ b s, a.Choosable S b s → b ≤ σ.retained → s < log.length →
      Agree log (a.hist b) s := by
    intro b s hc hle hs
    obtain ⟨v, hv⟩ : ∃ v, log[s]? = some v := ⟨_, List.getElem?_eq_getElem hs⟩
    rcases hfrom s hs with heq | heq
    · have hlt := (List.getElem?_eq_some_iff.mp (heq ▸ hv)).1
      exact (hσ.agree hc hle hlt).of_eq heq
    · have hlt := (List.getElem?_eq_some_iff.mp (heq ▸ hv)).1
      exact (hτ.agree hc (hle.trans hretained) hlt).of_eq heq
  exact
    { started := hσ.started
      below := fun b s hc hlt =>
        hagree b s hc hlt.le ((hσ.below b s hc hlt).lt_left.trans_le hlen)
      level := fun s hc hs => hagree _ s hc le_rfl hs
      committed := fun s hs => by
        obtain ⟨b, hle, hchosen, hold⟩ := hσ.committed s hs
        exact ⟨b, hle, hchosen,
          hagree b s (Chosen.choosable hchosen) hle (hold.lt_left.trans_le hlen)⟩
      serving := False.elim
      admits := fun {i v} hv => by
        rcases hfrom i (List.getElem?_eq_some_iff.mp hv).1 with heq | heq
        · exact hσ.admits (heq ▸ hv)
        · exact hτ.admits (heq ▸ hv) }

/-- What a ballot opened with may stand in for a log of a lower ballot. -/
theorem Good.install (h : Core S a) {σ : Snapshot β V} (hσ : Good S a σ) {b : β}
    (hretained : σ.retained < b) (hb : b ∈ a.started) :
    Good S a { retained := b, log := a.opening b, committed := σ.committed, serving := True } where
  started := hb
  below b' s hc hlt := h.holds b hb b' s hc hlt
  level _ _ hs := agree_of_segment (h.opening b hb) hs
  committed s hs := by
    obtain ⟨b', hle, hchosen, -⟩ := hσ.committed s hs
    exact ⟨b', hle.trans hretained.le, hchosen,
      h.holds b hb b' s (Chosen.choosable hchosen) (hle.trans_lt hretained)⟩
  serving _ := h.opening b hb
  admits hv := h.hist_admits (getElem?_of_segment (h.opening b hb) hv)

/-- **The selection.** The best report of a quorum holds whatever may be chosen below the
target. -/
theorem Core.best_holds (h : Core S a) {Q : Set N} {best : Report N β V} {target : β}
    (hQ : S.Quorum Q) (hbest : best ∈ a.reports)
    (hreports : ∀ n ∈ Q, ∃ ρ ∈ a.reports, ρ.target = target ∧ ρ.node = n ∧
      ρ.snapshot.NoBetter best.snapshot) {b : β} {s : ℕ} (hc : a.Choosable S b s)
    (hlt : b < target) :
    b ≤ best.snapshot.retained ∧ Agree best.snapshot.log (a.hist b) s := by
  obtain ⟨Q', hQ', hall⟩ := hc
  obtain ⟨m, hm, hm'⟩ := S.quorum_meet hQ hQ'
  obtain ⟨ρ, hρ, htarget, rfl, hbetter⟩ := hreports m hm
  have hsound := h.reports ρ hρ
  have hgood := (h.reports best hbest).good
  -- The common member had entered the target, so it has acknowledged the position already.
  have hacked : s < a.acked ρ.node b := by
    rcases hall ρ.node hm' with hacked | hpledge
    · exact hacked
    · have := hsound.pledge
      rw [htarget] at this
      exact absurd (this.trans hpledge) (not_le.mpr hlt)
  have hle : b ≤ ρ.snapshot.retained :=
    hsound.retained b (htarget ▸ hlt) (by omega)
  have hchoosable : a.Choosable S b s := ⟨Q', hQ', hall⟩
  rcases hbetter with hlower | ⟨hsame, hlen⟩
  · have hbelow := hle.trans_lt hlower
    exact ⟨hbelow.le, hgood.below b s hchoosable hbelow⟩
  · rw [hsame] at hle
    refine ⟨hle, ?_⟩
    rcases hle.lt_or_eq with hbelow | heq
    · exact hgood.below b s hchoosable hbelow
    · have hreach := hsound.acked
      rw [hsame, ← heq] at hreach
      have hs : s < best.snapshot.log.length := by omega
      exact hgood.agree hchoosable hle hs

/-! ### Reports and the fresh state -/

theorem Inv.report (h : Inv S a) {n : N} (hwhole : a.Whole n)
    (hleft : (a.nodes n).retained < (a.nodes n).current) :
    Inv S (a.report n) ∧ Grows a (a.report n) := by
  have hgrows : Grows a (a.report n) :=
    { Grows.refl a with reports := Set.subset_insert _ _ }
  refine ⟨{ h with
    good := fun m => (h.good m).mono hgrows
    seen := fun σ hσ => (h.seen σ hσ).mono hgrows
    reports := fun ρ hρ => ?_ }, hgrows⟩
  rcases hρ with rfl | hρ
  · exact
      { pledge := hwhole.pledge.ge
        below := hleft
        retained := fun b _ hne => hwhole.retained b hne
        acked := hwhole.acked
        good := (h.good n).mono hgrows }
  · exact (h.reports ρ hρ).mono hgrows

theorem inv_initial (S : Setting N β V) : Inv S (initial S) := by
  have hchosen : ∀ s < S.genesis.length, (initial S).Chosen S S.first s := fun s hs =>
    ⟨Set.univ, S.quorum_univ, fun n _ => by simpa [initial] using hs⟩
  have hgood : ∀ serving : Prop, Good S (initial S)
      { retained := S.first, log := S.genesis, committed := S.genesis.length
        serving := serving } := by
    intro serving
    refine
      { started := rfl
        below := fun b s hc hlt => ?_
        level := fun s _ hs => by simpa [initial] using agree_self hs
        committed := fun s hs =>
          ⟨S.first, le_rfl, hchosen s hs, by simpa [initial] using agree_self hs⟩
        serving := fun _ => by simp [initial]
        admits := S.genesis_admits }
    obtain ⟨Q, hQ, hall⟩ := hc
    obtain ⟨n, hn, -⟩ := S.quorum_meet hQ hQ
    rcases hall n hn with hacked | hpledge
    · simp [initial, hlt.ne] at hacked
    · exact absurd hpledge (not_le.mpr hlt)
  exact
    { good := fun _ => hgood _
      retained_le := fun _ => le_rfl
      current_le := fun _ => le_rfl
      acked_le := fun _ b => by
        by_cases hb : b = S.first <;> simp [initial, hb]
      acked_pledge := fun _ b hne => by
        by_cases hb : b = S.first
        · exact hb.le
        · simp [initial, hb] at hne
      leads := fun b hb => by
        obtain rfl : b = S.first := hb
        simp [initial]
      unstarted := fun b hb => by
        have hb : b ≠ S.first := hb
        simp [initial, hb]
      opening := fun b hb => by
        obtain rfl : b = S.first := hb
        simp [initial]
      holds := fun b hb b' s hc hlt => by
        obtain rfl : b = S.first := hb
        simpa [initial] using (hgood True).below b' s hc hlt
      first_le := fun b hb => by
        obtain rfl : b = S.first := hb
        exact le_rfl
      first_started := rfl
      first_opening := by simp [initial]
      first_acked := fun _ => by simp [initial]
      reports := fun _ hρ => hρ.elim
      seen := fun σ hσ => by
        obtain rfl : σ = _ := hσ
        exact hgood True
      present := fun _ => by simp [initial, Node.snapshot]
      hist_admits := fun {b i v} hv => by
        by_cases hb : b = S.first
        · simp only [initial, hb, if_pos] at hv
          exact S.genesis_admits hv
        · simp [initial, hb] at hv }

theorem whole_initial (S : Setting N β V) (n : N) : (initial S).Whole n := by
  refine ⟨rfl, fun b hne => ?_, ?_⟩
  · by_cases hb : b = S.first
    · exact hb.le
    · simp [initial, hb] at hne
  · simp [initial]

end Facts

/-! ### Steps keep the invariant -/

section Steps

variable [DecidableEq N] {a : State N β V}

theorem grows_move (n : N) (ν : Node β V) : Grows a (a.move n ν) where
  hist _ := List.prefix_rfl
  started := Set.Subset.rfl
  opening _ _ := rfl
  pledge m := by
    by_cases hm : m = n
    · subst hm
      simp [move]
    · simp [move, hm]
  acked _ _ := le_rfl
  frozen _ _ _ := rfl
  reports := Set.Subset.rfl
  seen := Set.subset_insert _ _

/-- A node may take on any sound log. -/
theorem Core.move (h : Core S a) {n : N} {ν : Node β V} (hgood : Good S a ν.snapshot)
    (hle : ν.retained ≤ ν.current) : Core S (a.move n ν) := by
  have hgrows := grows_move (a := a) n ν
  have hnode : ∀ P : Node β V → Prop, P ν → (∀ m, P (a.nodes m)) →
      ∀ m, P ((a.move n ν).nodes m) := by
    intro P hν hrest m
    by_cases hm : m = n
    · subst hm
      simpa [State.move] using hν
    · simpa [State.move, hm] using hrest m
  refine
    { good := fun m => hnode (fun ν => Good S (a.move n _) ν.snapshot) (hgood.mono hgrows)
        (fun m => (h.good m).mono hgrows) m
      retained_le := hnode (fun ν => ν.retained ≤ ν.current) hle h.retained_le
      current_le := fun m => ?_
      acked_le := h.acked_le
      acked_pledge := fun m b hacked => (h.acked_pledge m b hacked).trans (hgrows.pledge m)
      unstarted := h.unstarted
      opening := h.opening
      holds := fun b hb b' s hc hlt => h.holds b hb b' s (choosable_anti hgrows hc) hlt
      first_le := h.first_le
      first_started := h.first_started
      first_opening := h.first_opening
      first_acked := h.first_acked
      reports := fun ρ hρ => (h.reports ρ hρ).mono hgrows
      seen := fun σ hσ => ?_
      present := hnode (fun ν => ν.snapshot ∈ insert _ a.seen) (Set.mem_insert _ _)
        (fun m => Set.mem_insert_of_mem _ (h.present m))
      hist_admits := h.hist_admits }
  · by_cases hm : m = n
    · subst hm
      simp [State.move]
    · simpa [State.move, hm] using h.current_le m
  · rcases hσ with rfl | hσ
    · exact hgood.mono hgrows
    · exact (h.seen σ hσ).mono hgrows

/-- A node acknowledges only in the ballot it has pledged itself to. -/
theorem grows_ack {n : N} (hpledge : a.pledge n = (a.nodes n).retained)
    (hacked : a.acked n (a.nodes n).retained ≤ (a.nodes n).log.length) :
    Grows a (a.ack n) where
  hist _ := List.prefix_rfl
  started := Set.Subset.rfl
  opening _ _ := rfl
  pledge _ := le_rfl
  acked m b := by
    by_cases hm : m = n
    · subst hm
      by_cases hb : b = (a.nodes m).retained
      · subst hb
        simpa [State.ack] using hacked
      · simp [State.ack, hb]
    · simp [State.ack, hm]
  frozen m b hb := by
    by_cases hm : m = n
    · subst hm
      rw [hpledge] at hb
      simp [State.ack, hb.ne]
    · simp [State.ack, hm]
  reports := Set.Subset.rfl
  seen := Set.Subset.rfl

theorem acked_ack (n m : N) (b : β) :
    (a.ack n).acked m b =
      if m = n ∧ b = (a.nodes n).retained then (a.nodes n).log.length else a.acked m b := by
  by_cases hm : m = n
  · subst hm
    by_cases hb : b = (a.nodes m).retained
    · subst hb
      simp [State.ack]
    · simp [State.ack, hb]
  · simp [State.ack, hm]

theorem Core.ack (h : Core S a) {n : N} (hpledge : a.pledge n = (a.nodes n).retained)
    (hacked : a.acked n (a.nodes n).retained ≤ (a.nodes n).log.length)
    (hlog : (a.nodes n).log <+: a.hist (a.nodes n).retained) : Core S (a.ack n) := by
  have hgrows := grows_ack hpledge hacked
  refine
    { good := fun m => (h.good m).mono hgrows
      retained_le := h.retained_le
      current_le := h.current_le
      acked_le := fun m b => ?_
      acked_pledge := fun m b hne => ?_
      unstarted := h.unstarted
      opening := h.opening
      holds := fun b hb b' s hc hlt => h.holds b hb b' s (choosable_anti hgrows hc) hlt
      first_le := h.first_le
      first_started := h.first_started
      first_opening := h.first_opening
      first_acked := fun m => (h.first_acked m).trans (hgrows.acked m _)
      reports := fun ρ hρ => (h.reports ρ hρ).mono hgrows
      seen := fun σ hσ => (h.seen σ hσ).mono hgrows
      present := h.present
      hist_admits := h.hist_admits }
  · rw [acked_ack]
    split
    · rename_i heq
      rw [heq.2]
      exact hlog.length_le
    · exact h.acked_le m b
  · rw [acked_ack] at hne
    split at hne
    · rename_i heq
      show b ≤ a.pledge m
      rw [heq.1, heq.2, hpledge]
    · exact h.acked_pledge m b hne

/-! ### Runs -/

/-- The members of a step that only move a node. -/
theorem Inv.move (h : Inv S a) {n : N} {ν : Node β V} (hgood : Good S a ν.snapshot)
    (hle : ν.retained ≤ ν.current) : Inv S (a.move n ν) where
  toCore := h.toCore.move hgood hle
  leads := h.leads

theorem Inv.ack (h : Inv S a) {n : N} (hwhole : a.Whole n)
    (hserving : (a.nodes n).retained = (a.nodes n).current) : Inv S (a.ack n) where
  toCore := h.toCore.ack (hwhole.pledge.trans hserving.symm) hwhole.acked
    ((h.good n).serving hserving)
  leads b hb := by
    rw [acked_ack]
    split
    · rename_i heq
      obtain ⟨hprimary, rfl⟩ := heq
      rw [h.primary_log hwhole hserving hprimary]
      rfl
    · exact h.leads b hb

theorem Inv.propose (h : Inv S a) {p : N} {v : V} (hwhole : a.Whole p)
    (hserving : (a.nodes p).retained = (a.nodes p).current)
    (hprimary : S.primary (a.nodes p).retained = p)
    (hadmits : S.admits (a.nodes p).log.length v) :
    Inv S (a.propose p v) ∧ Grows a (a.propose p v) := by
  have hstarted : (a.nodes p).retained ∈ a.started := (h.good p).started
  have hlog := h.primary_log hwhole hserving hprimary
  have happend := h.toCore.append hstarted (hlog ▸ hadmits)
  have hhist : (a.append (a.nodes p).retained v).hist (a.nodes p).retained =
      (a.nodes p).log ++ [v] := by
    simp [State.append, hlog]
  have hmoved := happend.move (n := p) (ν := { a.nodes p with log := (a.nodes p).log ++ [v] })
    (Good.extend happend (happend.good p) (List.prefix_append _ _) (by
      show _ <+: (a.append (a.nodes p).retained v).hist (a.nodes p).retained
      rw [hhist])) (h.retained_le p)
  have hnode : ((a.append (a.nodes p).retained v).move p
      { a.nodes p with log := (a.nodes p).log ++ [v] }).nodes p =
        { a.nodes p with log := (a.nodes p).log ++ [v] } := by
    simp [State.move]
  have hpledge : ((a.append (a.nodes p).retained v).move p
      { a.nodes p with log := (a.nodes p).log ++ [v] }).pledge p = (a.nodes p).retained := by
    simp [State.move, State.append, hwhole.pledge, hserving]
  have hacked : a.acked p (a.nodes p).retained ≤ ((a.nodes p).log ++ [v]).length :=
    hwhole.acked.trans (List.prefix_append _ _).length_le
  have hcore : Core S (a.propose p v) := by
    refine hmoved.ack ?_ ?_ ?_
    · rw [hnode, hpledge]
    · rw [hnode]
      exact hacked
    · rw [hnode]
      show _ <+: (a.append (a.nodes p).retained v).hist (a.nodes p).retained
      rw [hhist]
  have hgrows : Grows a (a.propose p v) := by
    refine ((grows_append _ _).trans (grows_move _ _)).trans (grows_ack ?_ ?_)
    · rw [hnode, hpledge]
    · rw [hnode]
      exact hacked
  refine ⟨{ toCore := hcore, leads := fun b hb => ?_ }, hgrows⟩
  unfold State.propose
  rw [acked_ack, hnode]
  split
  · rename_i heq
    obtain ⟨-, rfl⟩ := heq
    show _ = ((a.append (a.nodes p).retained v).hist (a.nodes p).retained).length
    rw [hhist]
  · rename_i hne
    have hb' : b ≠ (a.nodes p).retained := by
      intro heq
      subst heq
      exact hne ⟨hprimary, rfl⟩
    have hkeep := h.leads b hb
    show a.acked (S.primary b) b = ((a.append (a.nodes p).retained v).hist b).length
    simpa [State.append, hb'] using hkeep

theorem Inv.win (h : Inv S a) {p : N} {Q : Set N} {best : Report N β V} {log : List V}
    (hwhole : a.Whole p) (hprimary : S.primary (a.nodes p).current = p)
    (hleft : (a.nodes p).retained < (a.nodes p).current)
    (hfresh : (a.nodes p).current ∉ a.started) (hQ : S.Quorum Q) (hbest : best ∈ a.reports)
    (hreports : ∀ n ∈ Q, ∃ ρ ∈ a.reports, ρ.target = (a.nodes p).current ∧ ρ.node = n ∧
      ρ.snapshot.NoBetter best.snapshot)
    (hlen : log.length = best.snapshot.log.length)
    (hfrom : ∀ s < log.length, log[s]? = best.snapshot.log[s]? ∨
      (log[s]? = (a.nodes p).log[s]? ∧
        (best.snapshot.retained = (a.nodes p).retained ∨ s < (a.nodes p).committed))) :
    Inv S (a.win p log) ∧ Grows a (a.win p log) := by
  have hown : Good S a (a.nodes p).snapshot := h.good p
  have hholds : ∀ b s, a.Choosable S b s → b < (a.nodes p).current →
      Agree log (a.hist b) s := by
    intro b s hc hlt
    obtain ⟨hle, hagree⟩ := h.best_holds hQ hbest hreports hc hlt
    have hs : s < log.length := hlen ▸ hagree.lt_left
    obtain ⟨v, hv⟩ : ∃ v, log[s]? = some v := ⟨_, List.getElem?_eq_getElem hs⟩
    rcases hfrom s hs with heq | ⟨heq, hsame | hcommitted⟩
    · exact hagree.of_eq heq
    · have hlt' := (List.getElem?_eq_some_iff.mp (heq ▸ hv)).1
      exact (hown.agree hc (hle.trans hsame.le) hlt').of_eq heq
    · -- A committed position is chosen, and whatever else may be chosen there is the same.
      obtain ⟨b', -, hchosen, hagree'⟩ := hown.committed s hcommitted
      have hb : b ∈ a.started := by
        by_contra hnot
        have := hagree.lt_right
        rw [h.unstarted b hnot] at this
        exact absurd this (Nat.not_lt_zero _)
      exact (hagree'.trans
        (h.chosen_choosable_agree hchosen hb hagree.lt_right hc)).of_eq heq
  have hfirst : S.first ≤ (a.nodes p).current :=
    (h.first_le _ hown.started).trans hleft.le
  have hgrows := grows_start h.toCore hfresh log
  have hadmits : ∀ {i : ℕ} {v : V}, log[i]? = some v → S.admits i v := by
    intro i v hv
    rcases hfrom i (List.getElem?_eq_some_iff.mp hv).1 with heq | ⟨heq, -⟩
    · exact (h.reports best hbest).good.admits (heq ▸ hv)
    · exact hown.admits (heq ▸ hv)
  have hstart := h.toCore.start hfresh hfirst hadmits hholds
  have hhist : (a.start (a.nodes p).current log).hist (a.nodes p).current = log := by
    simp [State.start]
  have hgood : Good S (a.start (a.nodes p).current log)
      ({ a.nodes p with retained := (a.nodes p).current, log := log } : Node β V).snapshot :=
    { started := Set.mem_insert _ _
      below := fun b s hc hlt =>
        (hholds b s (choosable_anti hgrows hc) hlt).mono_right (hgrows.hist b)
      level := fun s _ hs => by
        show Agree log ((a.start (a.nodes p).current log).hist (a.nodes p).current) s
        rw [hhist]
        exact agree_self hs
      committed := fun s hs => by
        obtain ⟨b, hle, hchosen, -⟩ := hown.committed s hs
        exact ⟨b, hle.trans hleft.le, chosen_mono hgrows hchosen,
          (hholds b s (Chosen.choosable hchosen) (hle.trans_lt hleft)).mono_right
            (hgrows.hist b)⟩
      serving := fun _ => by
        show log <+: (a.start (a.nodes p).current log).hist (a.nodes p).current
        rw [hhist]
      admits := hadmits }
  have hmoved := hstart.move (n := p) hgood le_rfl
  have hnode : ((a.start (a.nodes p).current log).move p
      { a.nodes p with retained := (a.nodes p).current, log := log }).nodes p =
        { a.nodes p with retained := (a.nodes p).current, log := log } := by
    simp [State.move]
  have hpledge : ((a.start (a.nodes p).current log).move p
      { a.nodes p with retained := (a.nodes p).current, log := log }).pledge p =
        (a.nodes p).current := by
    simp [State.move, State.start, hwhole.pledge]
  have hacked : a.acked p (a.nodes p).current ≤ log.length := by
    by_contra hlt
    exact absurd (hwhole.retained _ (by omega)) (not_le.mpr hleft)
  have hcore : Core S (a.win p log) := by
    refine hmoved.ack ?_ ?_ ?_
    · rw [hnode, hpledge]
    · rw [hnode]
      exact hacked
    · rw [hnode]
      show log <+: (a.start (a.nodes p).current log).hist (a.nodes p).current
      rw [hhist]
  have hgrows' : Grows a (a.win p log) := by
    refine (hgrows.trans (grows_move _ _)).trans (grows_ack ?_ ?_)
    · rw [hnode, hpledge]
    · rw [hnode]
      exact hacked
  refine ⟨{ toCore := hcore, leads := fun b hb => ?_ }, hgrows'⟩
  unfold State.win
  rw [acked_ack, hnode]
  split
  · rename_i heq
    obtain ⟨-, rfl⟩ := heq
    show _ = ((a.start (a.nodes p).current log).hist (a.nodes p).current).length
    rw [hhist]
  · rename_i hne
    have hb' : b ≠ (a.nodes p).current := by
      intro heq
      subst heq
      exact hne ⟨hprimary, rfl⟩
    have hold : b ∈ a.started := (Set.mem_insert_iff.mp hb).resolve_left hb'
    have hkeep := h.leads b hold
    show a.acked (S.primary b) b = ((a.start (a.nodes p).current log).hist b).length
    simpa [State.start, hb'] using hkeep

/-- **Every step keeps the invariant**, and the record only grows. -/
theorem Inv.step {a' : State N β V} (h : Inv S a) (hstep : Step S a a') :
    Inv S a' ∧ Grows a a' := by
  cases hstep with
  | propose p v hwhole hserving hprimary hadmits =>
    exact h.propose hwhole hserving hprimary hadmits
  | extend n log hserving hmore hlog =>
    exact ⟨h.move (Good.extend h.toCore (h.good n) hmore hlog) (h.retained_le n),
      grows_move _ _⟩
  | ack n hwhole hserving =>
    exact ⟨h.ack hwhole hserving, grows_ack (hwhole.pledge.trans hserving.symm) hwhole.acked⟩
  | learn n k hlen hchosen =>
    exact ⟨h.move ((h.good n).learn hlen hchosen) (h.retained_le n), grows_move _ _⟩
  | fence n b hlt =>
    have hbelow := (h.retained_le n).trans_lt hlt
    have hgood := h.good n
    refine ⟨h.move ?_ hbelow.le, grows_move _ _⟩
    exact { hgood with serving := fun heq => absurd heq hbelow.ne }
  | report n hwhole hleft => exact h.report hwhole hleft
  | adopt n σ log hσ hleft hretained hlen hfrom =>
    have hgood := (h.good n).adopt (h.seen σ hσ) hretained hlen hfrom
    refine ⟨h.move ?_ (h.retained_le n), grows_move _ _⟩
    exact { hgood with serving := fun heq => absurd heq hleft.ne }
  | install n b hcurrent hretained hstarted =>
    have hgood := Good.install h.toCore (h.good n) hretained hstarted
    exact ⟨h.move { hgood with serving := fun _ => hgood.serving trivial } le_rfl,
      grows_move _ _⟩
  | win p Q best log hwhole hprimary hleft hfresh hQ hbest htarget hreports hlen hfrom =>
    exact h.win hwhole hprimary hleft hfresh hQ hbest hreports hlen hfrom

theorem Inv.steps {a' : State N β V} (h : Inv S a) (hsteps : Steps S a a') :
    Inv S a' ∧ Grows a a' := by
  induction hsteps with
  | refl => exact ⟨h, Grows.refl a⟩
  | tail _ hstep ih =>
    obtain ⟨hinv, hgrows⟩ := ih
    obtain ⟨hinv', hgrows'⟩ := hinv.step hstep
    exact ⟨hinv', hgrows.trans hgrows'⟩

/-! ### Nodes that keep their state -/

theorem nodes_move (n : N) (ν : Node β V) (m : N) :
    (a.move n ν).nodes m = if m = n then ν else a.nodes m := by
  by_cases hm : m = n
  · subst hm
    simp [State.move]
  · simp [State.move, hm]

theorem pledge_move (n : N) (ν : Node β V) (m : N) :
    (a.move n ν).pledge m = if m = n then max (a.pledge n) ν.current else a.pledge m := by
  by_cases hm : m = n
  · subst hm
    simp [State.move]
  · simp [State.move, hm]

/-- A node that moves stays whole if it moves up. -/
theorem State.Whole.move {n m : N} {ν : Node β V} (h : a.Whole m)
    (hcurrent : (a.nodes n).current ≤ ν.current)
    (hretained : (a.nodes n).retained ≤ ν.retained)
    (hlog : ν.retained = (a.nodes n).retained → (a.nodes n).log.length ≤ ν.log.length) :
    (a.move n ν).Whole m := by
  by_cases hm : m = n
  · subst hm
    refine ⟨?_, fun b hne => ?_, ?_⟩
    · rw [pledge_move, nodes_move, if_pos rfl, if_pos rfl, h.pledge]
      exact max_eq_right hcurrent
    · rw [nodes_move, if_pos rfl]
      exact (h.retained b hne).trans hretained
    · rw [nodes_move, if_pos rfl]
      show a.acked m ν.retained ≤ ν.log.length
      rcases hretained.lt_or_eq with hlt | heq
      · by_contra hacked
        exact absurd (h.retained ν.retained (by omega)) (not_le.mpr hlt)
      · rw [← heq]
        exact h.acked.trans (hlog heq.symm)
  · refine ⟨?_, fun b hne => ?_, ?_⟩
    · rw [pledge_move, nodes_move, if_neg hm, if_neg hm]
      exact h.pledge
    · rw [nodes_move, if_neg hm]
      exact h.retained b hne
    · rw [nodes_move, if_neg hm]
      exact h.acked

theorem State.Whole.ack {n m : N} (h : a.Whole m) : (a.ack n).Whole m := by
  refine ⟨h.pledge, fun b hne => ?_, ?_⟩
  · rw [acked_ack] at hne
    split at hne
    · rename_i heq
      rw [heq.1, heq.2]
      exact le_rfl
    · exact h.retained b hne
  · rw [acked_ack]
    split
    · rename_i heq
      rw [heq.1]
      exact le_rfl
    · exact h.acked

/-- **A step leaves every node whole that was.** -/
theorem State.Whole.step {a' : State N β V} (hstep : Step S a a') {m : N} (hm : a.Whole m) :
    a'.Whole m := by
  cases hstep with
  | propose p v =>
    have happend : (a.append (a.nodes p).retained v).Whole m := ⟨hm.pledge, hm.retained, hm.acked⟩
    exact (happend.move (n := p) (ν := { a.nodes p with log := (a.nodes p).log ++ [v] }) le_rfl
      le_rfl fun _ => (List.prefix_append _ _).length_le).ack
  | extend n log hserving hmore => exact hm.move le_rfl le_rfl fun _ => hmore.length_le
  | ack n => exact hm.ack
  | learn n k => exact hm.move le_rfl le_rfl fun _ => le_rfl
  | fence n b hlt => exact hm.move hlt.le le_rfl fun _ => le_rfl
  | report n => exact ⟨hm.pledge, hm.retained, hm.acked⟩
  | adopt n σ log hσ hleft hretained hlen => exact hm.move le_rfl le_rfl fun _ => hlen
  | install n b hcurrent hretained =>
    exact hm.move hcurrent hretained.le fun heq => absurd heq hretained.ne'
  | win p Q best log hwhole hprimary hleft =>
    have hstart : (a.start (a.nodes p).current log).Whole m :=
      ⟨hm.pledge, hm.retained, hm.acked⟩
    exact (hstart.move (n := p)
      (ν := { a.nodes p with retained := (a.nodes p).current, log := log }) le_rfl hleft.le
      fun heq => absurd heq hleft.ne').ack

theorem State.Whole.steps {a' : State N β V} (hsteps : Steps S a a') {m : N}
    (hm : a.Whole m) : a'.Whole m := by
  induction hsteps with
  | refl => exact hm
  | tail _ hstep ih => exact ih.step hstep

end Steps

end Viewstamped
