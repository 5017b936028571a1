import PromptTags.Proofs.Files.Directories
import PromptTags.Proofs.Workspace.TagFiles

/-! Sample tag files for a workspace. They go into a directory without tag files, so that no file stands where one of
them is put, and the directory has just them for its tag files afterwards. -/
namespace PromptTags

/-- The content of a file by the names that lead to it from a directory. -/
def Disk.fileBelow? (d : Disk) (dir : Path) (names : List Text) : Option Content :=
  match (d.find? dir).bind (·.at? names) with
  | some (.file content) => some content
  | _ => none

theorem Disk.fileBelow?_eq_some_iff {d : Disk} {dir : Path} {place : Location} (h : d.locate dir = .ok place)
    {names : List Text} {content : Content} :
    d.fileBelow? dir names = some content ↔ d.tree.at? (place ++ names) = some (.file content) := by
  rw [fileBelow?, find?_of_locate h, FileTree.at?_append]
  rcases (d.tree.at? place).bind (·.at? names) with _ | _ | entries <;> simp

theorem Disk.mem_filesBelow {d : Disk} (hd : d.tree.WellFormed) {dir : Path} {place : Location}
    (h : d.locate dir = .ok place) {names : List Text} :
    names ∈ d.filesBelow dir ↔ ∃ content, d.tree.at? (place ++ names) = some (.file content) := by
  rw [filesBelow, find?_of_locate h, FileTree.at?_append]
  cases hat : d.tree.at? place with
  | none => simp
  | some t => exact FileTree.mem_files (hd.at? hat)

namespace SampleSource

open TagFiles (listed IsTagPath Precedes)
open Workspace (OnDisk run_bind_of_ok run_bind_of_error)

/-- The tag files of a source, as the names that lead to them. -/
def files (d : Disk) : SampleSource → List (List Text)
  | examples dir => listed d dir
  | builtin => Sample.all.map fun sample => [sample.name.toList]

/-- What a source has in its file of the given names. -/
def content? (d : Disk) (source : SampleSource) (names : List Text) : Option Content :=
  match source with
  | examples dir => d.fileBelow? dir names
  | builtin =>
    (Sample.all.find? fun sample => [sample.name.toList] = names).map fun sample => .text sample.content.toList

variable {d₁ d d' : Disk} {tagsDir examplesDir : Path} {q : Location} {offer : List Text → Option Content}
  {names : List Text} {done added added' : List (List Text)}

/-- A directory is there to put tag files into, and has none. -/
structure Ready (d : Disk) (tagsDir : Path) (q : Location) : Prop where
  wellFormed : d.tree.WellFormed
  locate : d.locate tagsDir = .ok q
  directory : d.HasDirectory tagsDir
  noTagFiles : listed d tagsDir = []

/-- A disk has gained tag files below a location, and nothing else. -/
structure Filled (d₁ : Disk) (q : Location) (offer : List Text → Option Content) (done : List (List Text))
    (d : Disk) : Prop where
  gains : d₁.Gains d fun place content => ∃ names ∈ done, place = q ++ names ∧ offer names = some content
  tagPath : ∀ names ∈ done, IsTagPath names
  present : ∀ names ∈ done, (offer names).isSome = true

theorem filled_nil (d : Disk) : Filled d q offer [] d :=
  ⟨(Disk.Gains.refl d).congr fun _ _ => iff_of_false id (by simp), by simp, by simp⟩

theorem Filled.gains_noFile (h : Filled d₁ q offer done d) (h' : d.Gains d' Disk.noFile) :
    Filled d₁ q offer done d' := ⟨h.gains.trans_noFile h', h.tagPath, h.present⟩

/-- A run adds tag files to those that are there if it does not fail, and some of them if it does. -/
def Adds (d₁ : Disk) (q : Location) (offer : List Text → Option Content) (done added : List (List Text))
    {α : Type} (outcome : Except Failure α × Disk) : Prop :=
  match outcome with
  | (.ok _, d) => Filled d₁ q offer (done ++ added) d
  | (.error _, d) => ∃ done', Filled d₁ q offer done' d

section Run

variable {α β : Type} {x : OnDisk α} {f : α → OnDisk β}

theorem Adds.bind (h : Adds d₁ q offer done added (x.run d))
    (hf : ∀ a d', Filled d₁ q offer (done ++ added) d' →
      Adds d₁ q offer (done ++ added) added' ((f a).run d')) :
    Adds d₁ q offer done (added ++ added') ((x >>= f).run d) := by
  rcases hx : x.run d with ⟨e | a, d'⟩
  · rw [run_bind_of_error hx]
    rw [hx] at h
    exact h
  · rw [run_bind_of_ok hx]
    rw [hx] at h
    have hrest := hf a d' h
    rcases hy : (f a).run d' with ⟨e | b, d''⟩
    · rw [hy] at hrest
      exact hrest
    · rw [hy] at hrest
      change Filled d₁ q offer (done ++ (added ++ added')) d''
      rw [← List.append_assoc]
      exact hrest

theorem Adds.bind_nil (h : Adds d₁ q offer done [] (x.run d))
    (hf : ∀ a d', Filled d₁ q offer done d' → Adds d₁ q offer done added ((f a).run d')) :
    Adds d₁ q offer done added ((x >>= f).run d) := by
  refine List.nil_append added ▸ h.bind fun a d' hfilled => ?_
  rw [List.append_nil] at hfilled ⊢
  exact hf a d' hfilled

/-- What makes no file adds nothing. -/
theorem adds_nil (h : Filled d₁ q offer done d) {r : Except Failure α} (hgains : d.Gains d' Disk.noFile) :
    Adds d₁ q offer done [] (r, d') := by
  have hfilled := h.gains_noFile hgains
  cases r with
  | error e => exact ⟨done, hfilled⟩
  | ok a =>
    change Filled d₁ q offer (done ++ []) d'
    rw [List.append_nil]
    exact hfilled

theorem Adds.map (h : Adds d₁ q offer done added (x.run d)) (b : β) :
    Adds d₁ q offer done added ((x >>= fun _ => pure b).run d) := by
  rcases hx : x.run d with ⟨e | a, d'⟩
  · rw [run_bind_of_error hx]
    rw [hx] at h
    exact h
  · rw [run_bind_of_ok hx]
    rw [hx] at h
    exact h

theorem value_of_map {b b' : β} (h : (x >>= fun _ => pure b).run d = (.ok b', d')) : b' = b := by
  rcases hx : x.run d with ⟨e | a, d''⟩
  · rw [run_bind_of_error hx] at h
    cases h
  · rw [run_bind_of_ok hx] at h
    cases h
    rfl

/-- What is written to the log adds nothing. -/
theorem adds_log (h : Filled d₁ q offer done d) (log : Log) :
    Adds d₁ q offer done [] ((liftM (FileAccess.log (m := StateM Disk) log) : OnDisk Unit).run d) :=
  adds_nil h (Disk.gains_log d (d.log ++ log))

/-- A change of the disk that puts a tag file there adds it unless it fails. -/
theorem adds_attempt {change : Disk → Except FileFault Disk} (h : Filled d₁ q offer done d)
    (hchange : ∀ d', change d = .ok d' → Filled d₁ q offer (done ++ [names]) d') :
    Adds d₁ q offer done [names] ((Failure.orFiles (Disk.attempt change)).run d) := by
  rw [Workspace.run_attempt]
  split
  · exact ⟨done, h⟩
  · next d' hchanged => exact hchange d' hchanged

/-- One tag file is added and logged, and then the others are. -/
theorem Adds.log_bind {y : OnDisk β} (h : Adds d₁ q offer done [names] (x.run d)) (log : Log)
    (hy : ∀ d', Filled d₁ q offer (done ++ [names]) d' → Adds d₁ q offer (done ++ [names]) added (y.run d')) :
    Adds d₁ q offer done (names :: added) ((do
      let _ ← x
      FileAccess.log (m := StateM Disk) log
      y : OnDisk β).run d) :=
  h.bind fun _ _ h' => (adds_log h' log).bind_nil fun _ d' => hy d'

end Run

theorem getLast?_join_nil {dir : Path} (hdir : dir ≠ []) : (Path.join dir []).getLast? = some '/' := by
  rw [Path.join, if_neg (by decide)]
  split
  · next hend => simpa [hdir] using hend
  · exact List.getLast?_concat

/-- The tag files of a directory by their locations on the disk. -/
theorem mem_listed_iff (hd : d.tree.WellFormed) (hlocate : d.locate tagsDir = .ok q) (hdir : d.HasDirectory tagsDir) :
    names ∈ listed d tagsDir ↔ (∃ content, d.tree.at? (q ++ names) = some (.file content)) ∧ IsTagPath names := by
  obtain ⟨entries, hfind⟩ := hdir
  have hat : d.tree.at? q = some (.directory entries) := (Disk.find?_of_locate hlocate).symm.trans hfind
  rw [TagFiles.mem_listed hd hfind, FileTree.at?_append, hat, Option.bind_some]

/-- An example is a file of the disk that its names lead to from the directory of examples. -/
theorem exists_of_mem_listed (hwell : d.tree.WellFormed) (hmem : names ∈ listed d examplesDir) :
    ∃ place content, d.locate examplesDir = .ok place ∧ d.tree.at? (place ++ names) = some (.file content) ∧
      d.fileBelow? examplesDir names = some content ∧ (∀ name ∈ names, Path.IsName name) ∧
      TagFiles.admits examplesDir names = true := by
  obtain ⟨hfiles, hadmits⟩ := TagFiles.mem_select.1 hmem
  obtain ⟨t, hfind⟩ : ∃ t, d.find? examplesDir = some t := by
    rw [Disk.filesBelow] at hfiles
    split at hfiles
    · next t hfind => exact ⟨t, hfind⟩
    · cases hfiles
  obtain ⟨place, hplace, hthere⟩ := Disk.exists_locate_of_find? hfind
  obtain ⟨content, hat⟩ := (Disk.mem_filesBelow hwell hplace).1 hfiles
  have hbelow : t.at? names = some (.file content) := by
    rwa [FileTree.at?_append, hthere, Option.bind_some] at hat
  exact ⟨place, content, hplace, hat, (Disk.fileBelow?_eq_some_iff hplace).2 hat,
    (hwell.at? hthere).isName hbelow, hadmits⟩

/-- A built-in sample has the name of a tag file, and is the only one of that name. -/
theorem sample_spec (d : Disk) {sample : Sample} (hmem : sample ∈ Sample.all) :
    Path.IsName sample.name.toList ∧ IsTagPath [sample.name.toList] ∧
      builtin.content? d [sample.name.toList] = some (.text sample.content.toList) := by
  have hnames : ∀ sample ∈ Sample.all, Path.IsName sample.name.toList ∧
      TagFiles.admits [] [sample.name.toList] = true := by decide
  obtain ⟨hname, hadmits⟩ := hnames sample hmem
  refine ⟨hname, (TagFiles.admits_iff (by simp) (List.forall_mem_singleton.2 hname)).1 hadmits, ?_⟩
  simp only [Sample.all, List.mem_cons, List.not_mem_nil, or_false] at hmem
  rcases hmem with rfl | rfl | rfl <;> rfl

section Into

variable (hready : Ready d₁ tagsDir q)

include hready

theorem Ready.free (htag : IsTagPath names) (content : Content) :
    d₁.tree.at? (q ++ names) ≠ some (.file content) := by
  intro hat
  have hlisted := (mem_listed_iff hready.wellFormed hready.locate hready.directory).2 ⟨⟨content, hat⟩, htag⟩
  rw [hready.noTagFiles] at hlisted
  cases hlisted

/-- A tag file is put where no file is: there was none before, and none of those put there so far has its names. -/
theorem Filled.store (h : Filled d₁ q offer done d) (hnames : ∀ name ∈ names, Path.IsName name)
    (htag : IsTagPath names) (hnew : names ∉ done) {content : Content} (hcontent : offer names = some content)
    (hstore : d.store (Path.join tagsDir (Path.ofNames names)) content = .ok d') :
    Filled d₁ q offer (done ++ [names]) d' := by
  have hne : names ≠ [] := by
    obtain ⟨dirs, name, rfl, -⟩ := htag
    simp
  obtain ⟨place, htarget⟩ := Disk.exists_target_of_store hstore
  obtain rfl := Disk.eq_append_of_target_join (h.gains.locate hready.locate) hnames hne htarget
  have hfree : ∀ content', d.tree.at? (q ++ names) ≠ some (.file content') := by
    intro content' hat
    -- a file there would be an old tag file, or one of those that are done
    rcases (h.gains.files _ _).1 hat with hat | ⟨names', hmem, heq, -⟩
    · exact hready.free htag content' hat
    · rw [List.append_cancel_left heq] at hnew
      exact hnew hmem
  have hgains := h.gains.trans (Disk.gains_store htarget hfree hstore)
  refine ⟨hgains.congr fun place content' => ?_, ?_, ?_⟩
  · have hlast : (place = q ++ names ∧ content' = content) ↔
        ∃ names' ∈ [names], place = q ++ names' ∧ offer names' = some content' := by
      simp [hcontent, eq_comm]
    rw [hlast]
    simp only [List.mem_append, or_and_right, exists_or]
  · exact List.forall_mem_append.2 ⟨h.tagPath, List.forall_mem_singleton.2 htag⟩
  · exact List.forall_mem_append.2 ⟨h.present, List.forall_mem_singleton.2 (Option.isSome_of_eq_some hcontent)⟩

/-! ### Copying examples -/

theorem Filled.copy (h : Filled d₁ q (d₁.fileBelow? examplesDir) done d) (hmem : names ∈ listed d₁ examplesDir)
    (hnew : names ∉ done)
    (hcopy : d.copy (Path.join examplesDir (Path.ofNames names)) (Path.join tagsDir (Path.ofNames names)) = .ok d') :
    Filled d₁ q (d₁.fileBelow? examplesDir) (done ++ [names]) d' := by
  obtain ⟨place, content, hplace, hat, hbelow, hnames, hadmits⟩ := exists_of_mem_listed hready.wellFormed hmem
  have hplace' := h.gains.locate hplace
  have hat' := h.gains.file hat
  rw [Disk.copy] at hcopy
  split at hcopy
  · cases hcopy
  · next found hfound =>
    obtain rfl := Disk.eq_append_of_locate_join hplace' hnames hfound
    rw [hat'] at hcopy
    have hne : names ≠ [] := by
      -- the path to a file itself does not go on behind a slash
      rintro rfl
      have hslash := getLast?_join_nil (Disk.ne_nil_of_formFault? (Disk.formFault?_of_locate hplace))
      obtain ⟨entries, hdirectory⟩ := Disk.directory_of_locate_slash hfound hslash
      rw [hdirectory] at hat'
      cases hat'
    exact h.store hready hnames ((TagFiles.admits_iff hne hnames).1 hadmits) hnew hbelow hcopy

/-- The examples are copied one after the other. -/
theorem adds_copyAll {files : List (List Text)} (h : Filled d₁ q (d₁.fileBelow? examplesDir) done d)
    (hfiles : ∀ names ∈ files, names ∈ listed d₁ examplesDir) (hnodup : (done ++ files).Nodup) :
    Adds d₁ q (d₁.fileBelow? examplesDir) done files
      ((copyAll examplesDir tagsDir (files.map Path.ofNames) : OnDisk Unit).run d) := by
  -- what is done grows file by file, and none of it is among the files that are left
  induction files generalizing done d with
  | nil => exact adds_nil h (.refl d)
  | cons names files ih =>
    have hnames := hfiles names List.mem_cons_self
    have hnew : names ∉ done := fun hmem => (List.nodup_append.1 hnodup).2.2 _ hmem _ List.mem_cons_self rfl
    have hrest (d : Disk) (h : Filled d₁ q (d₁.fileBelow? examplesDir) (done ++ [names]) d) :=
      ih h (fun other hmem => hfiles other (List.mem_cons_of_mem names hmem))
        (by rwa [List.append_assoc, List.singleton_append])
    have hcopy {d : Disk} (h : Filled d₁ q (d₁.fileBelow? examplesDir) done d) :
        Adds d₁ q (d₁.fileBelow? examplesDir) done [names]
          ((Failure.orFiles (FileAccess.copy (m := StateM Disk) (Path.join examplesDir (Path.ofNames names))
            (Path.join tagsDir (Path.ofNames names)))).run d) :=
      adds_attempt h fun d' => h.copy hready hnames hnew
    rw [List.map_cons, copyAll]
    split
    · exact (hcopy h).log_bind _ hrest
    · next parent _ =>
      -- the file may stand in a directory of its own
      refine (adds_nil h (Disk.ensures_makeDirectories parent d).gains).bind_nil fun _ d' h' => ?_
      exact (hcopy h').log_bind _ hrest

/-! ### Writing what is built in -/

theorem Filled.write {sample : Sample} (h : Filled d₁ q (builtin.content? d₁) done d) (hmem : sample ∈ Sample.all)
    (hnew : [sample.name.toList] ∉ done)
    (hstore : d.store (Path.join tagsDir sample.name.toList) (.text sample.content.toList) = .ok d') :
    Filled d₁ q (builtin.content? d₁) (done ++ [[sample.name.toList]]) d' := by
  obtain ⟨hname, htag, hcontent⟩ := sample_spec d₁ hmem
  rw [← Path.ofNames_singleton sample.name.toList] at hstore
  exact h.store hready (List.forall_mem_singleton.2 hname) htag hnew hcontent hstore

/-- The built-in samples are written one after the other. -/
theorem adds_writeAll {samples : List Sample} (h : Filled d₁ q (builtin.content? d₁) done d)
    (hsamples : ∀ sample ∈ samples, sample ∈ Sample.all)
    (hnodup : (done ++ samples.map fun sample => [sample.name.toList]).Nodup) :
    Adds d₁ q (builtin.content? d₁) done (samples.map fun sample => [sample.name.toList])
      ((writeAll tagsDir samples : OnDisk Unit).run d) := by
  induction samples generalizing done d with
  | nil => exact adds_nil h (.refl d)
  | cons sample samples ih =>
    have hnew : [sample.name.toList] ∉ done :=
      fun hmem => (List.nodup_append.1 hnodup).2.2 _ hmem _ List.mem_cons_self rfl
    have hwrite : Adds d₁ q (builtin.content? d₁) done [[sample.name.toList]]
        ((Failure.orFiles (FileAccess.write (m := StateM Disk) (Path.join tagsDir sample.name.toList)
          sample.content.toList)).run d) :=
      adds_attempt h fun d' => h.write hready (hsamples sample List.mem_cons_self) hnew
    rw [writeAll]
    refine hwrite.log_bind _ fun d' h' => ?_
    exact ih h' (fun other hmem => hsamples other (List.mem_cons_of_mem sample hmem))
      (by rwa [List.append_assoc, List.singleton_append])

end Into

/-! ### The outcome -/

/-- What is done with a directory without tag files. -/
def fill (tagsDir : Path) : SampleSource → OnDisk (List Path)
  | examples dir => do
    let files ← TagFiles.collect (m := StateM Disk) dir
    copyAll dir tagsDir files
    return files
  | builtin => do
    writeAll tagsDir Sample.all
    return Sample.all.map fun sample => sample.name.toList

theorem provision_run (tagsDir : Path) (source : SampleSource) (d : Disk) :
    (provision tagsDir source : OnDisk (List Path)).run d =
      match (FileAccess.makeDirectories tagsDir : StateM Disk _) d with
      | (.error fault, d₁) => (.error (.files fault), d₁)
      | (.ok (), d₁) =>
        if (listed d₁ tagsDir).isEmpty then (source.fill tagsDir).run d₁
        else (.ok [], { d₁ with log := d₁.log ++ .debug s!"{String.ofList tagsDir} already has tag files" }) := by
  have hmake : (Failure.orFiles (FileAccess.makeDirectories tagsDir) : OnDisk Unit).run d =
      (Failure.ofFiles ((FileAccess.makeDirectories tagsDir : StateM Disk _) d).1,
        ((FileAccess.makeDirectories tagsDir : StateM Disk _) d).2) := rfl
  unfold provision
  rcases hr : (FileAccess.makeDirectories tagsDir : StateM Disk _) d with ⟨fault | ⟨⟩, d₁⟩
  · rw [hr] at hmake
    exact run_bind_of_error hmake _
  · rw [hr] at hmake
    have hcollect : (liftM (TagFiles.collect (m := StateM Disk) tagsDir) : OnDisk (List Path)).run d₁ =
        (.ok ((listed d₁ tagsDir).map Path.ofNames), d₁) := rfl
    rw [run_bind_of_ok hmake, run_bind_of_ok hcollect, List.isEmpty_map]
    dsimp only
    cases (listed d₁ tagsDir).isEmpty <;> cases source <;> rfl

theorem pairwise_files (hd : d.tree.WellFormed) (source : SampleSource) : (source.files d).Pairwise Precedes := by
  cases source with
  | examples dir => exact TagFiles.pairwise_listed hd dir
  | builtin =>
    have hall : (Sample.all.map fun sample => [sample.name.toList]).Pairwise fun a b =>
        a.map Text.octets < b.map Text.octets := by decide
    exact hall

theorem nodup_of_pairwise {files : List (List Text)} (h : files.Pairwise Precedes) : files.Nodup := by
  refine h.imp fun {a b} hab heq => ?_
  subst heq
  exact List.lt_irrefl _ hab

/-- What is done with a directory without tag files adds the files of the source to it, and gives them. -/
theorem adds_fill (hready : Ready d₁ tagsDir q) (source : SampleSource) :
    Adds d₁ q (source.content? d₁) [] (source.files d₁) ((source.fill tagsDir).run d₁) := by
  have hnodup := nodup_of_pairwise (pairwise_files hready.wellFormed source)
  cases source with
  | examples dir => exact (adds_copyAll hready (filled_nil d₁) (fun _ => id) hnodup).map _
  | builtin => exact (adds_writeAll hready (filled_nil d₁) (fun _ => id) hnodup).map _

theorem written_of_fill {source : SampleSource} {written : List Path}
    (h : (source.fill tagsDir).run d₁ = (.ok written, d')) : written = (source.files d₁).map Path.ofNames := by
  cases source with
  | examples dir =>
    have hcollect : (liftM (TagFiles.collect (m := StateM Disk) dir) : OnDisk (List Path)).run d₁ =
        (.ok ((listed d₁ dir).map Path.ofNames), d₁) := rfl
    rw [fill, run_bind_of_ok hcollect] at h
    exact value_of_map h
  | builtin =>
    rw [value_of_map h, files, List.map_map]
    exact List.map_congr_left fun sample _ => (Path.ofNames_singleton sample.name.toList).symm

/-- A directory without tag files has just those that were put there. -/
theorem Filled.listed_eq (hready : Ready d₁ tagsDir q) (h : Filled d₁ q offer done d) (hdone : done.Pairwise Precedes) :
    listed d tagsDir = done := by
  have hd := h.gains.wellFormed hready.wellFormed
  have hmem : ∀ names, names ∈ listed d tagsDir ↔ names ∈ done := by
    intro names
    rw [mem_listed_iff hd (h.gains.locate hready.locate) (h.gains.hasDirectory hready.directory)]
    constructor
    · rintro ⟨⟨content, hfile⟩, htag⟩
      rcases (h.gains.files _ _).1 hfile with hold | ⟨names', hmem, heq, -⟩
      · exact absurd hold (hready.free htag content)
      · rwa [List.append_cancel_left heq]
    · intro hmem
      obtain ⟨content, hcontent⟩ := Option.isSome_iff_exists.1 (h.present names hmem)
      exact ⟨⟨content, (h.gains.files _ _).2 (.inr ⟨names, hmem, rfl, hcontent⟩)⟩, h.tagPath names hmem⟩
  -- two lists in order with the same members are the same
  have hlisted := TagFiles.pairwise_listed hd tagsDir
  have hperm := (List.perm_ext_iff_of_nodup (nodup_of_pairwise hlisted) (nodup_of_pairwise hdone)).2 hmem
  exact hperm.eq_of_pairwise (fun _ _ _ _ hab hba => absurd hba (List.lt_asymm hab)) hlisted hdone

/-- Nothing is provided where the directory cannot be made or has tag files; otherwise it is ready for those of the
source. -/
theorem provision_cases (hd : d.tree.WellFormed) (hdir : tagsDir ≠ []) {source : SampleSource}
    {result : Except Failure (List Path)} (h : (provision tagsDir source : OnDisk (List Path)).run d = (result, d')) :
    (∃ e, result = .error e ∧ d' = d.withDirectories tagsDir) ∨
    ((d.withDirectories tagsDir).HasDirectory tagsDir ∧ listed (d.withDirectories tagsDir) tagsDir ≠ [] ∧
      result = .ok [] ∧ ∃ log, d' = { d.withDirectories tagsDir with log := log }) ∨
    ∃ q, Ready (d.withDirectories tagsDir) tagsDir q ∧
      (source.fill tagsDir).run (d.withDirectories tagsDir) = (result, d') := by
  have hmade := Disk.ensures_makeDirectories tagsDir d
  rw [provision_run] at h
  rw [Disk.withDirectories]
  rcases hrun : (FileAccess.makeDirectories tagsDir : StateM Disk _) d with ⟨fault | ⟨⟩, d₁⟩
  · rw [hrun] at h
    cases h
    exact .inl ⟨_, rfl, rfl⟩
  · rw [hrun] at h hmade
    dsimp only at h ⊢
    have hdirectory := hmade.ok rfl hdir
    split at h
    · next hnone =>
      obtain ⟨entries, hfind⟩ := hdirectory
      obtain ⟨q, hq, -⟩ := Disk.exists_locate_of_find? hfind
      exact .inr (.inr ⟨q, ⟨hmade.gains.wellFormed hd, hq, ⟨entries, hfind⟩, List.isEmpty_iff.1 hnone⟩, h⟩)
    · next hsome =>
      cases h
      exact .inr (.inl ⟨hdirectory, fun hnil => hsome (List.isEmpty_iff.2 hnil), rfl, _, rfl⟩)

/-- Whatever provisioning does, the disk has all that it had before. -/
theorem gains_provision (hd : d.tree.WellFormed) (hdir : tagsDir ≠ []) (source : SampleSource) :
    ∃ new, d.Gains ((provision tagsDir source : OnDisk (List Path)).run d).2 new := by
  have hgains := d.gains_withDirectories tagsDir
  rcases hrun : (provision tagsDir source : OnDisk (List Path)).run d with ⟨result, d'⟩
  rcases provision_cases hd hdir hrun with ⟨-, -, rfl⟩ | ⟨-, -, -, log, rfl⟩ | ⟨q, hready, hfill⟩
  · exact ⟨_, hgains⟩
  · exact ⟨_, hgains.trans_noFile (Disk.gains_log _ log)⟩
  · have hadds := adds_fill hready source
    rw [hfill] at hadds
    cases result with
    | ok written => exact ⟨_, hgains.noFile_trans hadds.gains⟩
    | error e =>
      obtain ⟨done, hfilled⟩ := hadds
      exact ⟨_, hgains.noFile_trans hfilled.gains⟩

/-- A directory with tag files is provided with nothing more. -/
theorem provision_of_listed (hdirectory : d.HasDirectory tagsDir) (hlisted : listed d tagsDir ≠ [])
    (source : SampleSource) :
    ∃ log, (provision tagsDir source : OnDisk (List Path)).run d = (.ok [], { d with log := log }) := by
  rw [provision_run, (Disk.ensures_makeDirectories tagsDir d).present hdirectory]
  dsimp only
  rw [if_neg (by simpa using hlisted)]
  exact ⟨_, rfl⟩

/-- Where a directory led somewhere before, its tag files are the same after directories are made. -/
theorem examples_of_gains (hd : d.tree.WellFormed) (h : d.Gains d₁ Disk.noFile)
    (hdir : (d.find? examplesDir).isSome = true) :
    listed d₁ examplesDir = listed d examplesDir ∧ d₁.fileBelow? examplesDir = d.fileBelow? examplesDir := by
  obtain ⟨t, hfind⟩ := Option.isSome_iff_exists.1 hdir
  obtain ⟨place, hplace, -⟩ := Disk.exists_locate_of_find? hfind
  have hplace₁ := h.locate hplace
  have hd₁ := h.wellFormed hd
  -- both lists are made of the files below one place, and the files are the same
  have hfile (q : Location) (content : Content) :
      d₁.tree.at? q = some (.file content) ↔ d.tree.at? q = some (.file content) := by
    rw [h.files, Disk.noFile, or_false]
  constructor
  · refine TagFiles.select_eq_of_perm examplesDir ((List.perm_ext_iff_of_nodup
      (TagFiles.nodup_filesBelow hd₁ examplesDir) (TagFiles.nodup_filesBelow hd examplesDir)).2 fun names => ?_)
    simp only [Disk.mem_filesBelow hd hplace, Disk.mem_filesBelow hd₁ hplace₁, hfile]
  · funext names
    refine Option.ext fun content => ?_
    rw [Disk.fileBelow?_eq_some_iff hplace, Disk.fileBelow?_eq_some_iff hplace₁, hfile]

/-- What a directory without tag files receives from a source: just its files, each with its content. -/
structure Receives (d₁ d' : Disk) (tagsDir : Path) (source : SampleSource) (written : List Path) : Prop where
  given : written = (source.files d₁).map Path.ofNames
  sorted : (source.files d₁).Pairwise Precedes
  collected : ((TagFiles.collect tagsDir : StateM Disk (List Path)) d').1 = written
  present : ∀ names ∈ source.files d₁, ∃ content, source.content? d₁ names = some content ∧
    d'.fileBelow? tagsDir names = some content
  nothingElse : ∃ q, d₁.locate tagsDir = .ok q ∧ ∀ place content, d'.tree.at? place = some (.file content) ↔
    d₁.tree.at? place = some (.file content) ∨
      ∃ names ∈ source.files d₁, place = q ++ names ∧ source.content? d₁ names = some content

theorem receives_of_filled (hready : Ready d₁ tagsDir q) {source : SampleSource}
    (h : Filled d₁ q (source.content? d₁) (source.files d₁) d') :
    Receives d₁ d' tagsDir source ((source.files d₁).map Path.ofNames) := by
  have hsorted := pairwise_files hready.wellFormed source
  refine ⟨rfl, hsorted, ?_, fun names hmem => ?_, q, hready.locate, h.gains.files⟩
  · rw [TagFiles.collect_fst, h.listed_eq hready hsorted]
  · obtain ⟨content, hcontent⟩ := Option.isSome_iff_exists.1 (h.present names hmem)
    have hfile := (h.gains.files (q ++ names) content).2 (.inr ⟨names, hmem, rfl, hcontent⟩)
    exact ⟨content, hcontent, (Disk.fileBelow?_eq_some_iff (h.gains.locate hready.locate)).2 hfile⟩

/-- Provisioning changes no file that is there, whatever comes of it. The directory is made first, with those it has
to stand in, and stays as it is if it is there. If provisioning succeeds, then either the directory had tag files, and
nothing is written; or it had none, and then it receives the tag files of the source, in order and with their
contents, has just these for its tag files, and no other file is new. A source with tag files leaves nothing to be
written by a second time. The empty path leads to no directory, and nothing is said of it. -/
theorem provision_keeps_files_and_is_exact (d : Disk) (hd : d.tree.WellFormed) (tagsDir : Path)
    (hdir : tagsDir ≠ []) (source : SampleSource) :
    let d₁ := d.withDirectories tagsDir
    let result := ((provision tagsDir source : OnDisk (List Path)).run d).1
    let d' := ((provision tagsDir source : OnDisk (List Path)).run d).2
    (∀ place content, d.tree.at? place = some (.file content) → d'.tree.at? place = some (.file content)) ∧
    d.Gains d₁ Disk.noFile ∧ (d.HasDirectory tagsDir → d₁ = d) ∧
    (∀ dir, source = examples dir → (d.find? dir).isSome = true →
      source.files d₁ = source.files d ∧ source.content? d₁ = source.content? d) ∧
    ∀ written, result = .ok written →
      (listed d₁ tagsDir ≠ [] ∧ written = [] ∧ d'.tree = d₁.tree ∨
        listed d₁ tagsDir = [] ∧ Receives d₁ d' tagsDir source written) ∧
      (source.files d₁ ≠ [] → ∀ source' : SampleSource,
        ∃ log, (provision tagsDir source' : OnDisk (List Path)).run d' = (.ok [], { d' with log := log })) := by
  intro d₁ result d'
  have hgains := d.gains_withDirectories tagsDir
  refine ⟨fun place content hat => ?_, hgains, Disk.withDirectories_of_hasDirectory, ?_, fun written hwritten => ?_⟩
  · obtain ⟨new, hnew⟩ := gains_provision hd hdir source
    exact hnew.file hat
  · rintro dir rfl hfound
    exact examples_of_gains hd hgains hfound
  · have hrun : (provision tagsDir source : OnDisk (List Path)).run d = (.ok written, d') :=
      Prod.ext hwritten rfl
    rcases provision_cases hd hdir hrun with
      ⟨e, herror, -⟩ | ⟨hdirectory, hlisted, hok, log, hlog⟩ | ⟨q, hready, hfill⟩
    · cases herror
    · -- there were tag files, and only the log has changed since
      refine ⟨.inl ⟨hlisted, Except.ok.inj hok, by rw [hlog]⟩, fun _ source' => ?_⟩
      rw [hlog]
      exact provision_of_listed (d := { d₁ with log := log }) hdirectory hlisted source'
    · have hfilled : Filled d₁ q (source.content? d₁) (source.files d₁) d' := by
        have hadds := adds_fill hready source
        rw [hfill] at hadds
        exact hadds
      have hreceives := receives_of_filled hready hfilled
      rw [written_of_fill hfill]
      refine ⟨.inr ⟨hready.noTagFiles, hreceives⟩, fun hne source' => ?_⟩
      refine provision_of_listed (hfilled.gains.hasDirectory hready.directory) ?_ source'
      rwa [hfilled.listed_eq hready hreceives.sorted]

/-- Neither a tag file in a hidden directory nor a file of another kind keeps the built-in samples out. -/
theorem provision_keeps_files_and_is_exact_beside_hidden :
    let old : FileTree := .directory [(Text.lit "colors.yml", .file (.text (Text.lit "mine")))]
    let d : Disk := ⟨.directory [(Text.lit "tags", .directory
      [(Text.lit ".old", old), (Text.lit "colors.txt", .file (.bytes [255]))])], [], []⟩
    let tagsDir := Text.lit "/tags"
    let run := (provision tagsDir builtin : OnDisk (List Path)).run d
    let written := [Text.lit "colors.yml", Text.lit "outfits.yml", Text.lit "props.yml"]
    d.tree.WellFormed ∧ tagsDir ≠ [] ∧ run.1 = .ok written ∧
      ((TagFiles.collect tagsDir : StateM Disk (List Path)) run.2).1 = written ∧
      run.2.tree.at? [Text.lit "tags", Text.lit ".old", Text.lit "colors.yml"] =
        some (.file (.text (Text.lit "mine"))) ∧
      ∃ log, (provision tagsDir builtin : OnDisk (List Path)).run run.2 = (.ok [], { run.2 with log := log }) := by
  intro old d tagsDir run written
  have hd : d.tree.WellFormed := by decide
  have hdirectory : d.HasDirectory tagsDir := ⟨_, rfl⟩
  have hsame : d.withDirectories tagsDir = d := Disk.withDirectories_of_hasDirectory hdirectory
  have hnone : listed d tagsDir = [] := by decide
  have hresult : run.1 = .ok written := by
    have hrun : run = (builtin.fill tagsDir).run d := by
      simp only [run, provision_run, (Disk.ensures_makeDirectories tagsDir d).present hdirectory, hnone,
        List.isEmpty_nil, if_true]
    have hok : ((builtin.fill tagsDir).run d).1.isOk = true := by decide +kernel
    rw [hrun]
    rcases hfill : (builtin.fill tagsDir).run d with ⟨e | given, d'⟩
    · rw [hfill] at hok
      cases hok
    · rw [written_of_fill hfill]
      rfl
  obtain ⟨hold, -, -, -, hok⟩ := provision_keeps_files_and_is_exact d hd tagsDir (by decide) builtin
  obtain ⟨hwritten, hagain⟩ := hok written hresult
  refine ⟨hd, by decide, hresult, ?_, hold _ _ rfl, hagain (by rw [hsame]; decide) builtin⟩
  rw [hsame] at hwritten
  exact (hwritten.resolve_left fun h => h.1 hnone).2.collected

/-- At the empty path there is no directory to look for tag files in, and yet files are written by it, into the
current directory and over what is there. By way of a directory that is missing there is none to be seen either, but
it is there as soon as the missing one is made: then its tag files keep the samples out. -/
theorem provision_inexact_where_path_leads_nowhere :
    let mine : FileTree := .directory [(Text.lit "colors.yml", .file (.text (Text.lit "mine")))]
    let d : Disk := ⟨.directory [(Text.lit "tags", mine)], [Text.lit "tags"], []⟩
    let colors := Text.lit "/tags/colors.yml"
    let atEmpty := (provision [] builtin : OnDisk (List Path)).run d
    let beyond := Text.lit "/new/../tags"
    d.tree.WellFormed ∧
    (atEmpty.1 = .ok [Text.lit "colors.yml", Text.lit "outfits.yml", Text.lit "props.yml"] ∧
      d.read colors = .ok (Text.lit "mine") ∧ atEmpty.2.read colors = .ok Sample.colors.content.toList ∧
      ((TagFiles.collect [] : StateM Disk (List Path)) atEmpty.2).1 = []) ∧
    ((TagFiles.collect beyond : StateM Disk (List Path)) d).1 = [] ∧ builtin.files d ≠ [] ∧
      ((provision beyond builtin : OnDisk (List Path)).run d).1 = .ok [] := by
  intro mine d colors atEmpty beyond
  have hnone (d' : Disk) : listed d' [] = [] := rfl
  have hempty : atEmpty = (builtin.fill []).run d := by
    have hmade : (FileAccess.makeDirectories [] : StateM Disk _) d = (.ok (), d) := Disk.makeDirectories_nil d
    simp only [atEmpty, provision_run, hmade, hnone, List.isEmpty_nil, if_true]
  let d₁ : Disk := { d with tree := .directory [(Text.lit "tags", mine), (Text.lit "new", .directory [])] }
  have hbeyond : (FileAccess.makeDirectories beyond : StateM Disk _) d = (.ok (), d₁) := by
    -- only the first directory on the way is made, and the others come about by that
    have hnew : d.makeDirectory (Text.lit "/new") = .ok d₁ := by rfl
    have hback : (FileAccess.makeDirectories (Text.lit "/new/..") : StateM Disk _) d = (.ok (), d₁) :=
      Disk.makeDirectories_run_of_parent (by decide) (by rfl) (by decide)
        (Disk.makeDirectories_run_of_ok (by decide) hnew) ⟨_, rfl⟩
    exact Disk.makeDirectories_run_of_parent (by decide) (by rfl) (by decide) hback ⟨_, rfl⟩
  refine ⟨by decide, ⟨?_, by decide, ?_, ?_⟩, by decide, by decide, ?_⟩
  · rw [hempty]
    decide +kernel
  · rw [hempty]
    decide +kernel
  · rw [TagFiles.collect_fst, hnone]
    rfl
  · have hlisted : (listed d₁ beyond).isEmpty = false := by decide
    rw [provision_run, hbeyond]
    dsimp only
    rw [hlisted]
    rfl

end SampleSource

end PromptTags
