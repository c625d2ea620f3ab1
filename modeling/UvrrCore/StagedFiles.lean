import Mathlib.Data.List.Basic
import Mathlib.Logic.Function.Basic

/-!
# Staged writes

Files under names, on a disk that may lose what was not forced. A name has the entry that stands
under it and those that stood there since its directory was forced last; a crash leaves any one of
them, for each name apart, and of a file that was not forced any bytes at all. An action may also
fail, with or without its effect, and a write may come through in part.

A staged write creates a file beside the one it replaces, writes it, forces it, renames it over the
other and forces the directory. `stage_spec` says what it leaves: whatever fails, and wherever a
crash cuts it, only whole versions stand under the name, an old one or the new.
-/

namespace StagedFiles

structure File where
  bytes : List UInt8
  /-- Forced to the medium. -/
  forced : Bool
deriving DecidableEq

/-- What stands under each name, and what a crash may bring back there instead. -/
structure Disk (Name : Type) where
  entry : Name → Option File
  past : Name → List (Option File)

inductive Action (Name : Type) where
  | create (name : Name)
  | writeAll (name : Name) (bytes : List UInt8)
  | syncAll (name : Name)
  | rename (source target : Name)
  | remove (name : Name)
  /-- The directory of the name is forced. -/
  | syncParent (name : Name)

/-- How an action ends: whole, failed, or cut by a crash; of the last two, how much came through. -/
inductive Fate where
  | done
  | failed (part : Nat)
  | cut (part : Nat)
deriving DecidableEq

/-- How a program ends. -/
inductive Ending where
  | done
  | failed
  | cut
deriving DecidableEq

variable {Name Dir : Type}

namespace Disk

/-- A disk without a file. -/
def empty : Disk Name := ⟨fun _ => none, fun _ => []⟩

/-- All that a crash may leave under a name. -/
def versions (d : Disk Name) (name : Name) : List (Option File) := d.entry name :: d.past name

def exists? (d : Disk Name) (name : Name) : Bool := (d.entry name).isSome

def read (d : Disk Name) (name : Name) : Option (List UInt8) := (d.entry name).map File.bytes

variable [DecidableEq Name] [DecidableEq Dir] (parent : Name → Dir)

/-- A new entry. The old one may come back. -/
def replace (d : Disk Name) (name : Name) (file : Option File) : Disk Name where
  entry := Function.update d.entry name file
  past := Function.update d.past name (d.versions name)

/-- The file in place. -/
def fill (d : Disk Name) (name : Name) (file : File) : Disk Name :=
  { d with entry := Function.update d.entry name (some file) }

/-- An action that comes through. `none` where it is refused. -/
def act (d : Disk Name) : Action Name → Option (Disk Name)
  | .create name =>
    if d.exists? name then none else some (d.replace name (some ⟨[], false⟩))
  | .writeAll name bytes => some (d.fill name ⟨bytes, false⟩)
  | .syncAll name => (d.entry name).map fun file => d.fill name { file with forced := true }
  | .rename source target =>
    (d.entry source).map fun file => (d.replace target (some file)).replace source none
  | .remove name => if d.exists? name then some (d.replace name none) else none
  | .syncParent name => some
    { d with past := fun other => if parent other = parent name then [] else d.past other }

/-- What comes through of an action that does not: of a write so many bytes, of another action
nothing, or all of it. -/
def part (d : Disk Name) (count : Nat) : Action Name → Disk Name
  | .writeAll name bytes => d.fill name ⟨bytes.take count, false⟩
  | action => if count = 0 then d else (d.act parent action).getD d

/-- Actions in order, up to the first that does not come through. -/
def perform (d : Disk Name) : List (Action Name × Fate) → Disk Name × Ending
  | [] => (d, .done)
  | (action, fate) :: rest =>
    match d.act parent action, fate with
    | none, .cut _ => (d, .cut)
    | none, _ => (d, .failed)
    | some d', .done => perform d' rest
    | some _, .failed count => (d.part parent count action, .failed)
    | some _, .cut count => (d.part parent count action, .cut)

end Disk

/-! ### Crashes -/

/-- What a crash leaves of a version. -/
inductive Left : Option File → Option File → Prop
  | absent : Left none none
  | forced (bytes : List UInt8) : Left (some ⟨bytes, true⟩) (some ⟨bytes, true⟩)
  | torn (written left : List UInt8) : Left (some ⟨written, false⟩) (some ⟨left, true⟩)

/-- **A crash**: of each name one version, and no way back from it. -/
structure Crashed (d d' : Disk Name) : Prop where
  left : ∀ name, ∃ version ∈ d.versions name, Left version (d'.entry name)
  settled : ∀ name, d'.past name = []

/-- The crash that brings nothing back and tears nothing. -/
def Disk.settled (d : Disk Name) : Disk Name where
  entry name := (d.entry name).map fun file => { file with forced := true }
  past _ := []

theorem crashed_settled (d : Disk Name) : Crashed d d.settled := by
  refine ⟨fun name => ⟨d.entry name, List.mem_cons_self, ?_⟩, fun _ => rfl⟩
  simp only [Disk.settled]
  cases d.entry name with
  | none => exact .absent
  | some file =>
    obtain ⟨bytes, forced⟩ := file
    cases forced with
    | false => exact .torn bytes bytes
    | true => exact .forced bytes

/-- A version a crash leaves as it is. -/
def Solid (version : Option File) : Prop := ∀ file, version = some file → file.forced = true

theorem Left.eq {version left : Option File} (h : Left version left) (hsolid : Solid version) :
    left = version := by
  cases h with
  | absent => rfl
  | forced bytes => rfl
  | torn written left => cases hsolid _ rfl

/-- After a crash a name with solid versions has one of them, alone. -/
theorem Crashed.versions {d d' : Disk Name} (h : Crashed d d') {name : Name}
    (hsolid : ∀ version ∈ d.versions name, Solid version) :
    ∃ version ∈ d.versions name, d'.versions name = [version] := by
  obtain ⟨version, hmem, hleft⟩ := h.left name
  refine ⟨version, hmem, ?_⟩
  rw [Disk.versions, h.settled name, hleft.eq (hsolid version hmem)]

/-! ### The staged write -/

section

variable [DecidableEq Name] [DecidableEq Dir] (parent : Name → Dir)

/-- How each action of a staged write ends, and the removal of what a failed one leaves. -/
structure Fates where
  create : Fate
  write : Fate
  sync : Fate
  rename : Fate
  settle : Fate
  remove : Fate
deriving DecidableEq

/-- No fault. -/
def Fates.fine : Fates := ⟨.done, .done, .done, .done, .done, .done⟩

def stageActions (temporary path : Name) (bytes : List UInt8) (fates : Fates) :
    List (Action Name × Fate) :=
  [(.create temporary, fates.create), (.writeAll temporary bytes, fates.write),
    (.syncAll temporary, fates.sync), (.rename temporary path, fates.rename),
    (.syncParent path, fates.settle)]

/-- **A staged write.** The removal behind a failure may fail as well, and nobody hears of it. -/
def stage (d : Disk Name) (temporary path : Name) (bytes : List UInt8) (fates : Fates) :
    Disk Name × Ending :=
  match d.perform parent (stageActions temporary path bytes fates) with
  | (d', .failed) =>
    let removed := d'.perform parent [(.remove temporary, fates.remove)]
    (removed.1, if removed.2 = .cut then .cut else .failed)
  | result => result

/-! ### What an action leaves alone -/

/-- The names whose entry an action may change. -/
def Action.Touches : Action Name → Name → Prop
  | .create target, name | .writeAll target _, name | .syncAll target, name
  | .remove target, name => name = target
  | .rename source target, name => name = source ∨ name = target
  | .syncParent _, _ => False

/-- The same entry, and nothing new for a crash to bring back. -/
structure Kept (d d' : Disk Name) (name : Name) : Prop where
  entry : d'.entry name = d.entry name
  versions : ∀ version ∈ d'.versions name, version ∈ d.versions name

variable {parent} {d d' d'' : Disk Name} {action : Action Name} {name path temporary : Name}

omit [DecidableEq Name] in
theorem Kept.refl : Kept d d name := ⟨rfl, fun _ hmem => hmem⟩

omit [DecidableEq Name] in
theorem Kept.trans (h : Kept d d' name) (h' : Kept d' d'' name) : Kept d d'' name :=
  ⟨h'.entry.trans h.entry, fun version hmem => h.versions version (h'.versions version hmem)⟩

theorem replace_kept {target : Name} {file : Option File} (h : name ≠ target) :
    Kept d (d.replace target file) name := by
  have hentry : (d.replace target file).entry name = d.entry name := Function.update_of_ne h ..
  have hpast : (d.replace target file).past name = d.past name := Function.update_of_ne h ..
  refine ⟨hentry, fun version hmem => ?_⟩
  rwa [Disk.versions, hentry, hpast] at hmem

theorem fill_kept {target : Name} {file : File} (h : name ≠ target) :
    Kept d (d.fill target file) name := by
  have hentry : (d.fill target file).entry name = d.entry name := Function.update_of_ne h ..
  refine ⟨hentry, fun version hmem => ?_⟩
  rwa [Disk.versions, hentry] at hmem

theorem act_kept (hact : d.act parent action = some d') (h : ¬action.Touches name) :
    Kept d d' name := by
  cases action with
  | create target =>
    simp only [Disk.act] at hact
    split at hact
    · cases hact
    · cases hact
      exact replace_kept h
  | writeAll target bytes =>
    cases hact
    exact fill_kept h
  | syncAll target =>
    obtain ⟨file, -, rfl⟩ := Option.map_eq_some_iff.mp hact
    exact fill_kept h
  | rename source target =>
    obtain ⟨file, -, rfl⟩ := Option.map_eq_some_iff.mp hact
    obtain ⟨hsource, htarget⟩ := not_or.mp h
    exact (replace_kept htarget).trans (replace_kept hsource)
  | remove target =>
    simp only [Disk.act] at hact
    split at hact
    · cases hact
      exact replace_kept h
    · cases hact
  | syncParent target =>
    cases hact
    refine ⟨rfl, fun version hmem => ?_⟩
    rcases List.mem_cons.mp hmem with rfl | hpast
    · exact List.mem_cons_self
    · simp only at hpast
      split at hpast
      · cases hpast
      · exact List.mem_cons_of_mem _ hpast

theorem part_kept {count : Nat} (h : ¬action.Touches name) :
    Kept d (d.part parent count action) name := by
  have hwhole : Kept d (if count = 0 then d else (d.act parent action).getD d) name := by
    split
    · exact Kept.refl
    · cases hact : d.act parent action with
      | none => exact Kept.refl
      | some d' => exact act_kept hact h
  cases action with
  | writeAll target bytes => exact fill_kept h
  | _ => exact hwhole

/-- **One action of a program**: it is refused, comes through in part, or comes through and the
rest goes on. -/
theorem perform_rule {Q : Disk Name × Ending → Prop} {fate : Fate}
    {rest : List (Action Name × Fate)} (hrefused : ∀ ending ≠ .done, Q (d, ending))
    (hpart : ∀ ending ≠ .done, ∀ count, Q (d.part parent count action, ending))
    (hdone : ∀ d', d.act parent action = some d' → Q (d'.perform parent rest)) :
    Q (d.perform parent ((action, fate) :: rest)) := by
  cases hact : d.act parent action with
  | none =>
    cases fate
    all_goals simp only [Disk.perform, hact]
    all_goals exact hrefused _ (by simp)
  | some d' =>
    cases fate
    all_goals simp only [Disk.perform, hact]
    · exact hdone d' hact
    all_goals exact hpart _ (by simp) _

theorem perform_kept {actions : List (Action Name × Fate)}
    (h : ∀ action ∈ actions, ¬action.1.Touches name) :
    Kept d (d.perform parent actions).1 name := by
  induction actions generalizing d with
  | nil => exact Kept.refl
  | cons action rest ih =>
    obtain ⟨action, fate⟩ := action
    have hhead := h (action, fate) List.mem_cons_self
    refine perform_rule (Q := fun result => Kept d result.1 name) (fun _ _ => Kept.refl)
      (fun _ _ _ => part_kept hhead) fun d' hact => (act_kept hact hhead).trans ?_
    exact ih fun action hmem => h action (List.mem_cons_of_mem _ hmem)

/-! ### What a staged write leaves -/

/-- The versions of a name a staged write may leave. -/
structure Landing (d : Disk Name) (path : Name) (bytes : List UInt8) (result : Disk Name × Ending) :
    Prop where
  whole : ∀ version ∈ result.1.versions path,
    version ∈ d.versions path ∨ version = some ⟨bytes, true⟩
  landed : result.2 = .done → result.1.versions path = [some ⟨bytes, true⟩]

omit [DecidableEq Name] in
theorem Kept.landing {bytes : List UInt8} {ending : Ending} (h : Kept d d' path)
    (hending : ending ≠ .done) : Landing d path bytes (d', ending) :=
  ⟨fun version hmem => .inl (h.versions version hmem), fun hdone => absurd hdone hending⟩

theorem rename_versions {source target : Name} {file : File} (hne : source ≠ target)
    (hsource : d.entry source = some file)
    (hact : d.act parent (.rename source target) = some d') :
    d'.versions target = some file :: d.versions target := by
  simp only [Disk.act, hsource, Option.map_some, Option.some_inj] at hact
  subst hact
  simp [Disk.versions, Disk.replace, Function.update_of_ne hne.symm]

theorem performed_landing {bytes : List UInt8} {fates : Fates} (hne : temporary ≠ path) :
    Landing d path bytes (d.perform parent (stageActions temporary path bytes fates)) := by
  have hcreate : ¬(Action.create temporary).Touches path := fun h => hne h.symm
  have hwrite : ¬(Action.writeAll temporary bytes).Touches path := fun h => hne h.symm
  have hsync : ¬(Action.syncAll temporary).Touches path := fun h => hne h.symm
  have hsettle : ¬(Action.syncParent path).Touches path := fun h => h
  refine perform_rule (fun _ hending => Kept.refl.landing hending)
    (fun _ hending _ => (part_kept hcreate).landing hending) fun d₁ h₁ => ?_
  have k₁ := act_kept h₁ hcreate
  refine perform_rule (fun _ hending => k₁.landing hending)
    (fun _ hending _ => (k₁.trans (part_kept hwrite)).landing hending) fun d₂ h₂ => ?_
  have k₂ := k₁.trans (act_kept h₂ hwrite)
  refine perform_rule (fun _ hending => k₂.landing hending)
    (fun _ hending _ => (k₂.trans (part_kept hsync)).landing hending) fun d₃ h₃ => ?_
  have k₃ := k₂.trans (act_kept h₃ hsync)
  have hfile : d₃.entry temporary = some ⟨bytes, true⟩ := by
    cases h₂
    simp only [Disk.act, Disk.fill, Function.update_self, Option.map_some, Option.some_inj] at h₃
    subst h₃
    exact Function.update_self ..
  -- From the renaming on, the new version may stand too.
  have hrenamed : ∀ d₄, d₃.act parent (.rename temporary path) = some d₄ →
      ∀ version ∈ d₄.versions path, version ∈ d.versions path ∨ version = some ⟨bytes, true⟩ := by
    intro d₄ h₄ version hmem
    rw [rename_versions hne hfile h₄] at hmem
    rcases List.mem_cons.mp hmem with hnew | hold
    · exact .inr hnew
    · exact .inl (k₃.versions version hold)
  refine perform_rule (fun _ hending => k₃.landing hending) (fun ending hending count => ?_)
    fun d₄ h₄ => ?_
  · refine ⟨?_, fun hdone => absurd hdone hending⟩
    simp only [Disk.part]
    split
    · exact (k₃.landing hending).whole
    · cases h₄ : d₃.act parent (.rename temporary path) with
      | none => exact (k₃.landing hending).whole
      | some d₄ => exact hrenamed d₄ h₄
  have hwhole := hrenamed d₄ h₄
  refine perform_rule (fun _ hending => ⟨hwhole, fun hdone => absurd hdone hending⟩)
    (fun ending hending count => ⟨fun version hmem => ?_, fun hdone => absurd hdone hending⟩)
    fun d₅ h₅ => ?_
  · exact hwhole version ((part_kept hsettle).versions version hmem)
  · have k₅ : Kept d₄ d₅ path := act_kept h₅ hsettle
    refine ⟨fun version hmem => hwhole version (k₅.versions version hmem), fun _ => ?_⟩
    have hentry : d₄.versions path = some ⟨bytes, true⟩ :: d₃.versions path :=
      rename_versions hne hfile h₄
    rw [Disk.perform, Disk.versions, k₅.entry, (List.cons.inj hentry).1]
    cases h₅
    simp

/-- **A staged write never tears.** Under the name stand old versions and the new one, whole, the
new one alone where the write succeeded; every other name but the temporary one is left alone. -/
theorem stage_spec {bytes : List UInt8} {fates : Fates} (hne : temporary ≠ path) :
    Landing d path bytes (stage parent d temporary path bytes fates) ∧
      ∀ name, name ≠ temporary → name ≠ path →
        Kept d (stage parent d temporary path bytes fates).1 name := by
  have hperformed : Landing d path bytes
      (d.perform parent (stageActions temporary path bytes fates)) := performed_landing hne
  have hothers : ∀ name, name ≠ temporary → name ≠ path →
      Kept d (d.perform parent (stageActions temporary path bytes fates)).1 name := by
    intro name htemporary hpath
    refine perform_kept ?_
    simp [stageActions, Action.Touches, htemporary, hpath]
  unfold stage
  split
  · rename_i d' hfailed
    rw [hfailed] at hperformed hothers
    have hremoved : ∀ name, name ≠ temporary →
        Kept d' (d'.perform parent [(.remove temporary, fates.remove)]).1 name :=
      fun name htemporary => perform_kept (by simpa [Action.Touches] using htemporary)
    refine ⟨⟨fun version hmem => ?_, fun hdone => ?_⟩, fun name htemporary hpath =>
      (hothers name htemporary hpath).trans (hremoved name htemporary)⟩
    · exact hperformed.whole version ((hremoved path hne.symm).versions version hmem)
    · simp only at hdone
      split at hdone
      all_goals cases hdone
  · exact ⟨hperformed, hothers⟩

end

end StagedFiles
