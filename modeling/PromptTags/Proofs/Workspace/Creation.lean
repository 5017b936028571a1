import PromptTags.Proofs.Workspace.Change
import PromptTags.Proofs.Workspace.Provision

/-! Making a workspace. Its steps follow each other, and what one has done stays if a later one fails: a workspace
whose making fails after its state directory was made is one all the same. -/
namespace PromptTags.Workspace

open SampleSource (provision)

variable {root : Path} {withSamples : Bool} {d d' d₁ : Disk} {e : Failure}

/-! ### Runs that take nothing away -/

/-- Whatever comes of it, a run leaves all that there was. -/
def Grows {α : Type} (x : OnDisk α) : Prop :=
  ∀ d : Disk, d.tree.WellFormed → ∃ new, d.Gains (x.run d).2 new

section Grows

variable {α β : Type} {x : OnDisk α} {f : α → OnDisk β}

theorem Grows.bind (hx : Grows x) (hf : ∀ a, Grows (f a)) : Grows (x >>= f) := by
  intro d hd
  obtain ⟨new, hnew⟩ := hx d hd
  rcases hrun : x.run d with ⟨e | a, d₁⟩
  · rw [run_bind_of_error hrun]
    rw [hrun] at hnew
    exact ⟨new, hnew⟩
  · rw [run_bind_of_ok hrun]
    rw [hrun] at hnew
    obtain ⟨new', hnew'⟩ := hf a d₁ (hnew.wellFormed hd)
    exact ⟨_, hnew.trans hnew'⟩

/-- What only looks at the disk takes nothing away. -/
theorem grows_of_eq (h : ∀ d, (x.run d).2 = d) : Grows x := by
  intro d _
  rw [h d]
  exact ⟨_, .refl d⟩

theorem grows_makeDirectories (p : Path) :
    Grows (Failure.orFiles (FileAccess.makeDirectories (m := StateM Disk) p)) :=
  fun d _ => ⟨_, d.gains_withDirectories p⟩

theorem grows_log (log : Log) : Grows (liftM (FileAccess.log (m := StateM Disk) log) : OnDisk Unit) :=
  fun d _ => ⟨_, Disk.gains_log d (d.log ++ log)⟩

end Grows

/-! ### What is done with a new state directory -/

/-- The tags directory of a new workspace, with samples if they are asked for. -/
def seed (root : Path) (withSamples : Bool) : OnDisk (List Path) := do
  let tagsDir := Config.standard.tagsDirIn root
  Failure.orFiles (FileAccess.makeDirectories (m := StateM Disk) tagsDir)
  if !withSamples then return []
  let source ← SampleSource.detect (m := StateM Disk) (examplesDir root)
  let written ← provision tagsDir source
  FileAccess.log (m := StateM Disk) (.info
    s!"Provisioned {written.length} sample tag file(s) into {String.ofList tagsDir}")
  return written

/-- The steps that follow once a new workspace has its state directory. -/
def furnish (root : Path) (withSamples : Bool) : OnDisk (List Path) := do
  saveConfig root Config.standard
  seed root withSamples

theorem tagsDirIn_ne_nil (root : Path) : Config.standard.tagsDirIn root ≠ [] := by
  have htagsDir : Config.standard.tagsDirIn root = Path.join root Config.standardTagsDir := rfl
  rw [htagsDir, Path.join, if_neg (by decide)]
  split <;> simp [Config.standardTagsDir, Text.lit]

theorem detect_run (dir : Path) (d : Disk) :
    (SampleSource.detect dir : StateM Disk SampleSource) d =
      (if ((TagFiles.listed d dir).map Path.ofNames).isEmpty then .builtin else .examples dir, d) := by
  rw [SampleSource.detect, Disk.bind_apply, TagFiles.collect_fst]
  split <;> rfl

theorem grows_seed (root : Path) (withSamples : Bool) : Grows (seed root withSamples) := by
  refine (grows_makeDirectories _).bind fun _ => ?_
  cases withSamples with
  | false => exact grows_of_eq fun _ => rfl
  | true =>
    have hdetect : Grows (liftM (SampleSource.detect (m := StateM Disk) (examplesDir root)) : OnDisk SampleSource) :=
      grows_of_eq fun d => congrArg Prod.snd (detect_run (examplesDir root) d)
    refine hdetect.bind fun source => Grows.bind (fun d hd => ?_) fun written => ?_
    · exact SampleSource.gains_provision hd (tagsDirIn_ne_nil root) source
    · exact (grows_log _).bind fun _ => grows_of_eq fun _ => rfl

/-! ### The steps one by one -/

/-- What stands at the root of a workspace to be made, which is made if nothing does. -/
def prepare (root : Path) (d : Disk) : Except FileFault Unit × Disk :=
  if (d.find? root).isSome then (.ok (), d) else (FileAccess.makeDirectories root : StateM Disk _) d

theorem gains_prepare (root : Path) (d : Disk) : d.Gains (prepare root d).2 Disk.noFile := by
  rw [prepare]
  split
  · exact .refl d
  · exact d.gains_withDirectories root

/-- A state directory stands in its root. -/
theorem hasDirectory_of_stateDir (hroot : root ≠ []) (h : (d.find? (stateDir root)).isSome = true) :
    d.HasDirectory root := by
  have hname : ∀ name ∈ [Text.lit ".promptsel"], Path.IsName name := by decide
  exact Disk.hasDirectory_of_isSome_join hroot hname (by simp) h

/-- There is nothing to be made for a root with something in the place of its state directory. -/
theorem prepare_of_stateDir (h : (d.find? (stateDir root)).isSome = true) : prepare root d = (.ok (), d) := by
  rw [prepare]
  by_cases hroot : root = []
  · subst hroot
    exact Disk.makeDirectories_nil d
  · obtain ⟨entries, hfind⟩ := hasDirectory_of_stateDir hroot h
    rw [hfind, Option.isSome_some, if_pos rfl]

/-- Where the root cannot be made there is no state directory. -/
theorem find?_stateDir_of_prepare {fault : FileFault} (h : prepare root d = (.error fault, d')) :
    d'.find? (stateDir root) = none := by
  rw [prepare] at h
  split at h
  · cases h
  · have hroot : root ≠ [] := by
      rintro rfl
      rw [Disk.makeDirectories_nil] at h
      cases h
    have hmade := Disk.ensures_makeDirectories root d
    rw [h] at hmade
    have habsent := mt (hasDirectory_of_stateDir hroot) (hmade.error fault rfl)
    exact Option.not_isSome_iff_eq_none.1 habsent

theorem establish_run (root : Path) (d : Disk) :
    (establish root : OnDisk Unit).run d =
      if (d.find? (stateDir root)).isSome then (.error (.config (.alreadyWorkspace root)), d)
      else match d.makeDirectory (stateDir root) with
        | .error fault => (.error (.files fault), d)
        | .ok d₁ => (.ok (), d₁) := by
  have hpresent :
      (liftM (FileAccess.isPresent (m := StateM Disk) (stateDir root)) : OnDisk Bool).run d =
        (.ok ((d.find? (stateDir root)).map Disk.kindOf).isSome, d) := rfl
  have hmake := run_attempt (fun d => d.makeDirectory (stateDir root)) d
  rw [establish, run_bind_of_ok hpresent, Option.isSome_map]
  cases (d.find? (stateDir root)).isSome with
  | true => rfl
  | false => exact hmake

/-- Once the path is there, the state directory is made if nothing is in its place, and then what belongs to it. -/
theorem establish_furnish_run (root : Path) (withSamples : Bool) (d : Disk) :
    (do
      establish root
      furnish root withSamples : OnDisk (List Path)).run d =
      if (d.find? (stateDir root)).isSome then (.error (.config (.alreadyWorkspace root)), d)
      else match d.makeDirectory (stateDir root) with
        | .error fault => (.error (.files fault), d)
        | .ok d₁ => (furnish root withSamples).run d₁ := by
  have hrun := establish_run root d
  cases hsome : (d.find? (stateDir root)).isSome with
  | true =>
    rw [hsome] at hrun
    exact run_bind_of_error hrun _
  | false =>
    rw [hsome, if_neg Bool.false_ne_true] at hrun
    rw [if_neg Bool.false_ne_true]
    cases hmake : d.makeDirectory (stateDir root) with
    | error fault =>
      rw [hmake] at hrun
      exact run_bind_of_error hrun _
    | ok d₁ =>
      rw [hmake] at hrun
      exact run_bind_of_ok hrun _

theorem create_run (root : Path) (withSamples : Bool) (d : Disk) :
    (create root withSamples : OnDisk (List Path)).run d =
      match prepare root d with
      | (.error fault, d₀) => (.error (.files fault), d₀)
      | (.ok (), d₀) =>
        if (d₀.find? (stateDir root)).isSome then (.error (.config (.alreadyWorkspace root)), d₀)
        else match d₀.makeDirectory (stateDir root) with
          | .error fault => (.error (.files fault), d₀)
          | .ok d₁ => (furnish root withSamples).run d₁ := by
  have hpresent :
      (liftM (FileAccess.isPresent (m := StateM Disk) root) : OnDisk Bool).run d =
        (.ok ((d.find? root).map Disk.kindOf).isSome, d) := rfl
  have hmake : (Failure.orFiles (FileAccess.makeDirectories (m := StateM Disk) root) : OnDisk Unit).run d =
      (Failure.ofFiles ((FileAccess.makeDirectories root : StateM Disk _) d).1,
        ((FileAccess.makeDirectories root : StateM Disk _) d).2) := rfl
  have hcreate : (create root withSamples : OnDisk (List Path)) = (do
      if !(← FileAccess.isPresent (m := StateM Disk) root) then
        Failure.orFiles (FileAccess.makeDirectories (m := StateM Disk) root)
      establish root
      furnish root withSamples) := rfl
  rw [hcreate, run_bind_of_ok hpresent, Option.isSome_map, prepare]
  cases (d.find? root).isSome with
  | true => exact establish_furnish_run root withSamples d
  | false =>
    simp only [Bool.false_eq_true, if_false]
    rcases hrun : (FileAccess.makeDirectories root : StateM Disk _) d with ⟨fault | ⟨⟩, d₀⟩
    · rw [hrun] at hmake
      exact run_bind_of_error hmake _
    · rw [hrun] at hmake
      exact (run_bind_of_ok hmake _).trans (establish_furnish_run root withSamples d₀)

/-! ### The outcome -/

/-- In a new state directory the configuration is a new file. -/
theorem gains_store_configFile (hstate : d.find? (stateDir root) = some (.directory [])) {content : Content}
    (h : d.store (configFile root) content = .ok d') : ∃ new, d.Gains d' new := by
  obtain ⟨place, htarget⟩ := Disk.exists_target_of_store h
  obtain ⟨q, hq, hat⟩ := Disk.exists_locate_of_find? hstate
  have hname : ∀ name ∈ [configName], Path.IsName name := by decide
  obtain rfl := Disk.eq_append_of_target_join hq hname (by simp) htarget
  have hfree : ∀ content', d.tree.at? (q ++ [configName]) ≠ some (.file content') := by
    intro content' hfile
    rw [FileTree.at?_append, hat] at hfile
    cases hfile
  exact ⟨_, Disk.gains_store htarget hfree h⟩

/-- What follows the making of the state directory takes nothing away, and its configuration is there to be loaded
afterwards unless the path to it is of no use. -/
theorem gains_furnish (hd : d.tree.WellFormed) (hstate : d.find? (stateDir root) = some (.directory []))
    {result : Except Failure (List Path)} (h : (furnish root withSamples).run d = (result, d')) :
    (∃ new, d.Gains d' new) ∧
      (Disk.formFault? (configFile root) = none →
        (loadConfig root : OnDisk Config).run d' = (.ok Config.standard, d')) := by
  have hbound : Config.standard.maxPasses.toNat < Config.storableBound := by decide
  have hstored := Config.standard.stored_eq_entries hbound
  have hread := Config.standard.ofStored_entries hbound
  have hsave := saveConfig_run root hstored d
  rw [hstate] at hsave
  simp only [Option.isSome_some, if_true] at hsave
  rw [furnish] at h
  split at hsave
  · next fault hfault =>
    -- an empty directory takes the file, unless its path is of no use
    rw [run_bind_of_error hsave] at h
    cases h
    refine ⟨⟨_, .refl d⟩, fun hform => ?_⟩
    obtain ⟨d₂, hstore⟩ := exists_store_configFile root hstate (by simp) hform _
    rw [hfault] at hstore
    cases hstore
  · next d₂ hstore =>
    -- what comes after the configuration leaves it as it is
    obtain ⟨new, hnew⟩ := gains_store_configFile hstate hstore
    obtain ⟨new', hnew'⟩ := grows_seed root withSamples d₂ (hnew.wellFormed hd)
    rw [run_bind_of_ok hsave] at h
    rw [h] at hnew'
    have hkept := hnew'.read (Disk.read_of_store hstore)
    exact ⟨⟨_, hnew.trans hnew'⟩, fun _ => loadConfig_of_read root hkept hread⟩

/-- A workspace is not made where something has the place of its state directory. -/
theorem create_of_stateDir (h : (d.find? (stateDir root)).isSome = true) (withSamples : Bool) :
    (create root withSamples : OnDisk (List Path)).run d = (.error (.config (.alreadyWorkspace root)), d) := by
  rw [create_run, prepare_of_stateDir h]
  dsimp only
  rw [if_pos h]

/-- Making a workspace ends before the state directory is made, or goes on with what belongs to it. -/
theorem create_cases {result : Except Failure (List Path)}
    (h : (create root withSamples : OnDisk (List Path)).run d = (result, d')) :
    (∃ fault, prepare root d = (.error fault, d')) ∨
    (prepare root d = (.ok (), d') ∧ (d'.find? (stateDir root)).isSome = true ∧
      result = .error (.config (.alreadyWorkspace root))) ∨
    (prepare root d = (.ok (), d') ∧ d'.find? (stateDir root) = none) ∨
    ∃ d₀ d₁, prepare root d = (.ok (), d₀) ∧ d₀.find? (stateDir root) = none ∧
      d₀.makeDirectory (stateDir root) = .ok d₁ ∧ (furnish root withSamples).run d₁ = (result, d') := by
  rw [create_run] at h
  rcases hprepare : prepare root d with ⟨fault | ⟨⟩, d₀⟩
  · rw [hprepare] at h
    cases h
    exact .inl ⟨fault, rfl⟩
  · rw [hprepare] at h
    dsimp only at h
    split at h
    · next hstate =>
      cases h
      exact .inr (.inl ⟨rfl, hstate, rfl⟩)
    · next hstate =>
      have hnone := Option.not_isSome_iff_eq_none.1 hstate
      split at h
      · cases h
        exact .inr (.inr (.inl ⟨rfl, hnone⟩))
      · next d₁ hmake => exact .inr (.inr (.inr ⟨d₀, d₁, rfl, hnone, hmake, h⟩))

theorem find?_stateDir_of_makeDirectory (h : d.makeDirectory (stateDir root) = .ok d₁) :
    d₁.find? (stateDir root) = some (.directory []) :=
  Disk.find?_of_makeDirectory h (by rw [getLast?_stateDir]; decide)

/-- Making a workspace takes nothing away, whatever comes of it. -/
theorem grows_create (root : Path) (withSamples : Bool) : Grows (create root withSamples : OnDisk (List Path)) := by
  intro d hd
  have hgains := gains_prepare root d
  rcases hrun : (create root withSamples : OnDisk (List Path)).run d with ⟨result, d'⟩
  rcases create_cases hrun with
    ⟨fault, hprepare⟩ | ⟨hprepare, -⟩ | ⟨hprepare, -⟩ | ⟨d₀, d₁, hprepare, -, hmake, hfurnish⟩
  all_goals rw [hprepare] at hgains
  · exact ⟨_, hgains⟩
  · exact ⟨_, hgains⟩
  · exact ⟨_, hgains⟩
  · have hmade := hgains.trans_noFile (Disk.gains_makeDirectory hmake)
    obtain ⟨new, hnew⟩ :=
      (gains_furnish (hmade.wellFormed hd) (find?_stateDir_of_makeDirectory hmake) hfurnish).1
    exact ⟨_, hmade.trans hnew⟩

/-- Where the state directory comes with the making of the root, the root was not there. -/
theorem root_of_prepare (h : prepare root d = (.ok (), d')) (hbefore : d.find? (stateDir root) = none)
    (hafter : (d'.find? (stateDir root)).isSome = true) : d.find? root = none ∧ d' = d.withDirectories root := by
  rw [prepare] at h
  split at h
  · cases h
    rw [hbefore] at hafter
    cases hafter
  · next hroot => exact ⟨Option.not_isSome_iff_eq_none.1 hroot, (congrArg Prod.snd h).symm⟩

theorem isRoot_run (root : Path) (d : Disk) :
    ((isRoot root : StateM Disk Bool) d).1 =
      decide ((d.find? (stateDir root)).map Disk.kindOf = some .directory) := rfl

/-- What a failure leaves behind of a workspace that was to be made. -/
structure Remains (root : Path) (withSamples : Bool) (d : Disk) (e : Failure) (d' : Disk) : Prop where
  before : d.find? (stateDir root) = none
  after : (d'.find? (stateDir root)).isSome = true
  again : ∀ withSamples',
    (create root withSamples' : OnDisk (List Path)).run d' = (.error (.config (.alreadyWorkspace root)), d')
  cause :
    d.find? root = none ∧ d' = d.withDirectories root ∧ e = .config (.alreadyWorkspace root) ∨
    ∃ d₀ d₁, prepare root d = (.ok (), d₀) ∧ d₀.makeDirectory (stateDir root) = .ok d₁ ∧
      (furnish root withSamples).run d₁ = (.error e, d') ∧ ((isRoot root : StateM Disk Bool) d').1 = true ∧
      (Disk.formFault? (configFile root) = none →
        (loadConfig root : OnDisk Config).run d' = (.ok Config.standard, d'))

/-- If making a workspace fails, no file that was there is changed. If something had the place of the state directory
before, the failure says so, and nothing at all is changed. Otherwise that place is still empty, or else something is
there that nothing takes back: the state directory, after its own step, with the standard configuration in it unless
that has too long a path; or what the path of the root, which led nowhere, leads to by way of the directories that
were made for it. With what remains, every further attempt fails as if there were a workspace. -/
theorem failed_creation_changes_no_file (d : Disk) (hd : d.tree.WellFormed) (root : Path) (withSamples : Bool)
    (e : Failure) (d' : Disk) (h : (create root withSamples : OnDisk (List Path)).run d = (.error e, d')) :
    (∀ place content, d.tree.at? place = some (.file content) → d'.tree.at? place = some (.file content)) ∧
    ((d.find? (stateDir root)).isSome = true → e = .config (.alreadyWorkspace root) ∧ d' = d) ∧
    (d'.find? (stateDir root) = d.find? (stateDir root) ∨ Remains root withSamples d e d') := by
  obtain ⟨new, hnew⟩ := grows_create root withSamples d hd
  rw [h] at hnew
  have hpresent (hstate : (d.find? (stateDir root)).isSome = true) :
      e = .config (.alreadyWorkspace root) ∧ d' = d := by
    rw [create_of_stateDir hstate] at h
    cases h
    exact ⟨rfl, rfl⟩
  refine ⟨fun place content => hnew.file, hpresent, ?_⟩
  by_cases hstate : (d.find? (stateDir root)).isSome = true
  · exact .inl (by rw [(hpresent hstate).2])
  · have hbefore := Option.not_isSome_iff_eq_none.1 hstate
    rcases create_cases h with
      ⟨fault, hprepare⟩ | ⟨hprepare, hafter, herror⟩ | ⟨-, hnone⟩ | ⟨d₀, d₁, hprepare, -, hmake, hfurnish⟩
    · exact .inl ((find?_stateDir_of_prepare hprepare).trans hbefore.symm)
    · -- the place was empty before the root was made, and is not any more
      refine .inr ⟨hbefore, hafter, create_of_stateDir hafter, .inl ?_⟩
      obtain ⟨hroot, hmade⟩ := root_of_prepare hprepare hbefore hafter
      exact ⟨hroot, hmade, Except.error.inj herror⟩
    · exact .inl (hnone.trans hbefore.symm)
    · -- the state directory has been made, and nothing that follows takes it away
      have hmade := gains_prepare root d
      rw [hprepare] at hmade
      have hd₁ := (Disk.gains_makeDirectory hmake).wellFormed (hmade.wellFormed hd)
      have hfresh := find?_stateDir_of_makeDirectory hmake
      obtain ⟨⟨new, hgains⟩, hload⟩ := gains_furnish hd₁ hfresh hfurnish
      have hstay := hgains.hasDirectory ⟨[], hfresh⟩
      obtain ⟨entries, hfind⟩ := hstay
      have hafter : (d'.find? (stateDir root)).isSome = true := by rw [hfind]; rfl
      refine .inr ⟨hbefore, hafter, create_of_stateDir hafter,
        .inr ⟨d₀, d₁, hprepare, hmake, hfurnish, ?_, hload⟩⟩
      rw [isRoot_run, hfind]
      rfl

/-- The path of the root leads through its state directory, which is made on the way to it. -/
theorem failed_creation_changes_no_file_by_way_of_state :
    let root := Text.lit "/.promptsel/.."
    let d : Disk := ⟨.directory [], [], []⟩
    let d' : Disk := ⟨.directory [(Text.lit ".promptsel", .directory [])], [], []⟩
    let e : Failure := .config (.alreadyWorkspace root)
    d.tree.WellFormed ∧ (create root true : OnDisk (List Path)).run d = (.error e, d') ∧
      d.find? (stateDir root) = none ∧ Remains root true d e d' := by
  intro root d d' e
  have hroot : root ≠ [] := by decide
  have hprepare : prepare root d = (.ok (), d') := by
    have hstate : (FileAccess.makeDirectories (Text.lit "/.promptsel") : StateM Disk _) d = (.ok (), d') :=
      Disk.makeDirectories_run_of_ok (by decide) rfl
    have habsent : d.find? root = none := rfl
    have hparent : Path.parent? root = some (Text.lit "/.promptsel") := by decide
    -- the state directory is made first, as the one that two dots are to be made in
    rw [prepare, habsent, Option.isSome_none, if_neg Bool.false_ne_true,
      Disk.makeDirectories_run_of_missing hroot rfl, hparent]
    dsimp only
    rw [hstate]
    rfl
  have hstate : (d'.find? (stateDir root)).isSome = true := rfl
  have hcreate : (create root true : OnDisk (List Path)).run d = (.error e, d') := by
    rw [create_run, hprepare]
    dsimp only
    rw [if_pos hstate]
  have hd : d.tree.WellFormed := by decide
  obtain ⟨-, -, houtcome⟩ := failed_creation_changes_no_file d hd root true e d' hcreate
  refine ⟨hd, hcreate, rfl, houtcome.resolve_left fun hsame => ?_⟩
  rw [hsame] at hstate
  cases hstate

/-- With a file in the place of the tags directory the state directory remains, also when the file is gone. -/
theorem failed_creation_leaves_root_behind :
    let root := Text.lit "/w"
    let w : FileTree := .directory [(Text.lit "tags", .file (.text (Text.lit "x")))]
    let d : Disk := ⟨.directory [(Text.lit "w", w)], [], []⟩
    let d' := ((create root false : OnDisk (List Path)).run d).2
    d.tree.WellFormed ∧ (create root false : OnDisk (List Path)).run d = (.error (.files .taken), d') ∧
      ((isRoot root : StateM Disk Bool) d).1 = false ∧ ((isRoot root : StateM Disk Bool) d').1 = true ∧
      ((create root false : OnDisk (List Path)).run (d'.remove (Text.lit "/w/tags"))).1 =
        .error (.config (.alreadyWorkspace root)) := by
  intro root w d d'
  have hbound : Config.standard.maxPasses.toNat < Config.storableBound := by decide
  have hstored := Config.standard.stored_eq_entries hbound
  generalize (Config.standard.entries hbound).flatMap Toml.Field.line = text at hstored
  let tags : Text × FileTree := (Text.lit "tags", .file (.text (Text.lit "x")))
  let disk (state : FileTree) : Disk :=
    ⟨.directory [(Text.lit "w", .directory [tags, (Text.lit ".promptsel", state)])], [], []⟩
  let d₁ := disk (.directory [])
  let d₂ := disk (.directory [(configName, .file (.text text))])
  have hsave : (saveConfig root Config.standard : OnDisk Unit).run d₁ = (.ok (), d₂) := by
    rw [saveConfig_run root hstored]
    rfl
  have hfault : d₂.makeDirectory (Config.standard.tagsDirIn root) = .error .taken := rfl
  have hdirectories : (Failure.orFiles (FileAccess.makeDirectories (m := StateM Disk)
      (Config.standard.tagsDirIn root)) : OnDisk Unit).run d₂ = (.error (.files .taken), d₂) := by
    have hrun := Disk.makeDirectories_run_of_fault (tagsDirIn_ne_nil root) hfault nofun
    exact congrArg (fun made => (Failure.ofFiles made.1, made.2)) hrun
  have hcreate : (create root false : OnDisk (List Path)).run d = (.error (.files .taken), d₂) := by
    have hmake : d.makeDirectory (stateDir root) = .ok d₁ := rfl
    have hprepare : prepare root d = (.ok (), d) := rfl
    have hnone : d.find? (stateDir root) = none := rfl
    rw [create_run, hprepare]
    simp only [hnone, hmake, Option.isSome_none, Bool.false_eq_true, if_false]
    rw [furnish, run_bind_of_ok hsave]
    exact run_bind_of_error hdirectories _
  have hd' : d' = d₂ := congrArg Prod.snd hcreate
  rw [hd']
  refine ⟨by decide, hcreate, rfl, rfl, ?_⟩
  rw [create_of_stateDir rfl]

end PromptTags.Workspace
