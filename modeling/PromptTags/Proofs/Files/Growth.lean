import PromptTags.Proofs.Files.Tree

/-! Disks that only grow. Making a directory, or writing a file where there is none, leaves every file with its
content and every path where it led. -/
namespace PromptTags

namespace FileTree

variable {t u v : FileTree} {place q : Location} {names : List Text}

theorem Keeps.refl (t : FileTree) : t.Keeps t := fun _ entries h => ⟨entries, h, fun _ => id⟩

theorem Keeps.trans (h : t.Keeps u) (h' : u.Keeps v) : t.Keeps v := by
  intro place entries hat
  obtain ⟨entries', hat', hnames⟩ := h place entries hat
  obtain ⟨entries'', hat'', hnames'⟩ := h' place entries' hat'
  exact ⟨entries'', hat'', fun name hname => hnames' name (hnames name hname)⟩

/-- Names lead down from a location, one after the other. -/
theorem eq_append_of_follow (h : ∀ name ∈ names, Path.IsName name) (hway : t.follow place names = some q) :
    q = place ++ names := by
  induction names generalizing place with
  | nil => simpa [follow] using hway.symm
  | cons name names ih =>
    have hname := h name List.mem_cons_self
    rw [follow] at hway
    split at hway
    · rw [if_neg hname.ne_dot, if_neg hname.ne_up] at hway
      split at hway
      · rw [ih (fun n hn => h n (List.mem_cons_of_mem name hn)) hway, List.append_assoc, List.singleton_append]
      · cases hway
    · cases hway

/-- Only a directory can be left. -/
theorem directory_of_follow_cons {piece : Text} {pieces : List Text}
    (h : t.follow place (piece :: pieces) = some q) : ∃ entries, t.at? place = some (directory entries) := by
  rw [follow] at h
  split at h
  · next entries hat => exact ⟨entries, hat⟩
  · cases h

end FileTree

namespace Disk

variable {d d' d'' : Disk} {p dir : Path} {place q : Location} {names : List Text}

def HasDirectory (d : Disk) (p : Path) : Prop := ∃ entries, d.find? p = some (.directory entries)

/-! ### Paths on a disk -/

theorem pieces_eq (p : Path) :
    pieces p = if p.getLast? = some '/' then Path.steps p ++ [['.']] else Path.steps p := rfl

theorem find?_of_locate (h : d.locate p = .ok place) : d.find? p = d.tree.at? place := by rw [find?, h]

theorem exists_locate_of_find? {t : FileTree} (h : d.find? p = some t) :
    ∃ place, d.locate p = .ok place ∧ d.tree.at? place = some t := by
  rw [find?] at h
  split at h
  · next place hplace => exact ⟨place, hplace, h⟩
  · cases h

theorem formFault?_of_locate (h : d.locate p = .ok place) : formFault? p = none := (locate_eq_ok_iff.1 h).1

/-- The way of a path is the way along its pieces, and a slash at the end does not lead on. -/
theorem follow_steps (h : d.locate p = .ok place) :
    d.tree.follow (d.start p) (Path.steps p) = some place := by
  have hway := (locate_eq_ok_iff.1 h).2
  rw [pieces_eq] at hway
  split at hway
  · rw [FileTree.follow_append] at hway
    obtain ⟨q, hq, hway⟩ := Option.bind_eq_some_iff.1 hway
    rw [hq, (FileTree.follow_dot hway).1]
  · exact hway

theorem locate_of_follow_steps (hform : formFault? p = none)
    (hway : d.tree.follow (d.start p) (Path.steps p) = some place) {entries : List (Text × FileTree)}
    (hat : d.tree.at? place = some (.directory entries)) : d.locate p = .ok place := by
  refine locate_eq_ok_iff.2 ⟨hform, ?_⟩
  rw [pieces_eq]
  split
  · rw [FileTree.follow_append, hway, Option.bind_some]
    simp [FileTree.follow, hat]
  · exact hway

/-- With a slash at its end a path leads to a directory. -/
theorem directory_of_locate_slash (h : d.locate p = .ok place) (hslash : p.getLast? = some '/') :
    ∃ entries, d.tree.at? place = some (.directory entries) := by
  have hway := (locate_eq_ok_iff.1 h).2
  rw [pieces_eq, if_pos hslash, FileTree.follow_append] at hway
  obtain ⟨q, -, hway⟩ := Option.bind_eq_some_iff.1 hway
  exact (FileTree.follow_dot hway).2

theorem start_join (d : Disk) (hdir : dir ≠ []) {p : Path} (hp : Path.isAbsolute p = false) :
    d.start (Path.join dir p) = d.start dir := by
  obtain ⟨c, cs, rfl⟩ := List.exists_cons_of_ne_nil hdir
  rw [Path.join, if_neg (by simp [hp])]
  split <;> rfl

theorem ne_nil_of_formFault? (h : formFault? p = none) : p ≠ [] := (formFault?_eq_none_iff.1 h).1

section Join

variable (hdir : d.locate dir = .ok q) (hnames : ∀ name ∈ names, Path.IsName name)

include hdir hnames

/-- The way of a path that is taken from a directory goes through the directory. -/
theorem follow_join : d.tree.follow (d.start (Path.join dir (Path.ofNames names)))
    (Path.steps (Path.join dir (Path.ofNames names))) = d.tree.follow q names := by
  have hrelative := Path.isAbsolute_ofNames hnames
  rw [d.start_join (ne_nil_of_formFault? (formFault?_of_locate hdir)) hrelative, Path.steps_join dir hrelative,
    Path.steps_ofNames hnames, FileTree.follow_append, follow_steps hdir, Option.bind_some]

theorem eq_append_of_locate_join (h : d.locate (Path.join dir (Path.ofNames names)) = .ok place) :
    place = q ++ names := by
  have hway := follow_steps h
  rw [follow_join hdir hnames] at hway
  exact FileTree.eq_append_of_follow hnames hway

/-- Where a file is to be written below a directory. -/
theorem eq_append_of_target_join (hne : names ≠ [])
    (h : d.target (Path.join dir (Path.ofNames names)) = .ok place) : place = q ++ names := by
  obtain ⟨front, last, rfl⟩ := (List.eq_nil_or_concat' names).resolve_left hne
  have hrelative := Path.isAbsolute_ofNames hnames
  have hfront : ∀ name ∈ front, Path.IsName name := fun name hname => hnames name (List.mem_append_left _ hname)
  obtain ⟨before, name, r, entries, hsteps, -, hway, -, -, -, rfl⟩ := target_eq_ok h
  change Path.steps _ = _ at hsteps
  rw [Path.steps_join dir hrelative, Path.steps_ofNames hnames, ← List.append_assoc] at hsteps
  obtain ⟨rfl, hlast⟩ := List.append_inj' hsteps rfl
  rw [d.start_join (ne_nil_of_formFault? (formFault?_of_locate hdir)) hrelative, FileTree.follow_append,
    follow_steps hdir, Option.bind_some] at hway
  rw [FileTree.eq_append_of_follow hfront hway, List.append_assoc, ← List.singleton_injective hlast]

end Join

/-! ### Gaining files -/

/-- A disk has what another one has, with every path leading where it led, and new files besides. -/
structure Gains (d d' : Disk) (new : Location → Content → Prop) : Prop where
  current : d'.current = d.current
  keeps : d.tree.Keeps d'.tree
  files : ∀ place content, d'.tree.at? place = some (.file content) ↔
    d.tree.at? place = some (.file content) ∨ new place content
  wellFormed : d.tree.WellFormed → d'.tree.WellFormed

def noFile (_ : Location) (_ : Content) : Prop := False

section Gains

variable {new new' : Location → Content → Prop}

theorem Gains.refl (d : Disk) : d.Gains d noFile :=
  ⟨rfl, .refl d.tree, fun _ _ => ⟨.inl, fun h => h.resolve_right id⟩, id⟩

theorem Gains.trans (h : d.Gains d' new) (h' : d'.Gains d'' new') :
    d.Gains d'' fun place content => new place content ∨ new' place content where
  current := h'.current.trans h.current
  keeps := h.keeps.trans h'.keeps
  files place content := by rw [h'.files, h.files, or_assoc]
  wellFormed hd := h'.wellFormed (h.wellFormed hd)

theorem Gains.congr (h : d.Gains d' new) (heq : ∀ place content, new place content ↔ new' place content) :
    d.Gains d' new' :=
  ⟨h.current, h.keeps, fun place content => by rw [h.files, heq], h.wellFormed⟩

theorem Gains.trans_noFile (h : d.Gains d' new) (h' : d'.Gains d'' noFile) : d.Gains d'' new :=
  (h.trans h').congr fun _ _ => or_iff_left id

theorem Gains.noFile_trans (h : d.Gains d' noFile) (h' : d'.Gains d'' new) : d.Gains d'' new :=
  (h.trans h').congr fun _ _ => or_iff_right id

/-- What is written to the log is no file. -/
theorem gains_log (d : Disk) (log : Log) : d.Gains { d with log := log } noFile :=
  ⟨rfl, .refl d.tree, fun _ _ => ⟨.inl, fun h => h.resolve_right id⟩, id⟩

theorem Gains.file (h : d.Gains d' new) {content : Content} (hat : d.tree.at? place = some (.file content)) :
    d'.tree.at? place = some (.file content) := (h.files place content).2 (.inl hat)

theorem Gains.locate (h : d.Gains d' new) (hplace : d.locate p = .ok place) : d'.locate p = .ok place := by
  obtain ⟨hform, hway⟩ := locate_eq_ok_iff.1 hplace
  have hstart : d'.start p = d.start p := by rw [start, start, h.current]
  exact locate_eq_ok_iff.2 ⟨hform, hstart ▸ h.keeps.follow hway⟩

theorem Gains.hasDirectory (h : d.Gains d' new) (hp : d.HasDirectory p) : d'.HasDirectory p := by
  obtain ⟨entries, hfind⟩ := hp
  obtain ⟨place, hplace, hat⟩ := exists_locate_of_find? hfind
  obtain ⟨entries', hat', -⟩ := h.keeps place entries hat
  exact ⟨entries', (find?_of_locate (h.locate hplace)).trans hat'⟩

/-- What is read from a file is read from it afterwards. -/
theorem Gains.read (h : d.Gains d' new) {t : Text} (hread : d.read p = .ok t) : d'.read p = .ok t := by
  rw [Disk.read] at hread
  split at hread
  · cases hread
  · next place hplace =>
    split at hread
    · next found hat =>
      cases hread
      rw [Disk.read, h.locate hplace]
      simp only [h.file hat]
    · cases hread
    · cases hread
    · cases hread

end Gains

/-- A name that a new node is put under is one that leads to it. -/
theorem isName_of_target {before : List Text} {name : Text}
    (hsteps : (Text.split '/' p).filter (fun piece => !piece.isEmpty) = before ++ [name])
    (hdot : name ≠ ['.']) (hup : name ≠ ['.', '.']) : Path.IsName name := by
  have hmem : name ∈ (Text.split '/' p).filter fun piece => !piece.isEmpty :=
    hsteps ▸ List.mem_append_right before List.mem_cons_self
  obtain ⟨hsplit, hne⟩ := List.mem_filter.1 hmem
  exact ⟨by simpa using hne, Text.notMem_of_mem_split hsplit, hdot, hup⟩

/-- Where nothing stands, a node can be put without any harm. -/
theorem gains_put {node : FileTree} (htarget : d.target p = .ok place) (hfree : d.tree.at? place = none)
    (hnode : node.WellFormed) :
    d.Gains { d with tree := d.tree.put place node } fun q content =>
      ∃ rest, q = place ++ rest ∧ node.at? rest = some (.file content) := by
  obtain ⟨before, name, dir, entries, hsteps, -, -, hat, hdot, hup, rfl⟩ := target_eq_ok htarget
  refine ⟨rfl, FileTree.keeps_put hat (fun inner h => ?_) node, fun q content => ?_,
    fun hd => FileTree.wellFormed_put hd (isName_of_target hsteps hdot hup) hnode dir⟩
  · rw [hfree] at h
    cases h
  · -- no file stands at the place or below it, so all files stand elsewhere
    have helsewhere : d.tree.at? q = some (.file content) → ¬ dir ++ [name] <+: q := by
      rintro hq ⟨rest, rfl⟩
      rw [FileTree.at?_append, hfree] at hq
      cases hq
    rw [FileTree.at?_put_eq_file_iff hat, or_comm, and_iff_right_of_imp helsewhere]
    simp [List.append_assoc]

theorem gains_makeDirectory (h : d.makeDirectory p = .ok d') : d.Gains d' noFile := by
  rw [makeDirectory] at h
  split at h
  · cases h
  · next place htarget =>
    split at h
    · cases h
    · next hfree =>
      obtain rfl := Except.ok.inj h
      have hempty : (FileTree.directory []).WellFormed := by decide
      -- there is no file in an empty directory
      refine (gains_put htarget (by simpa using hfree) hempty).congr fun q content => iff_of_false ?_ id
      rintro ⟨rest, -, hrest⟩
      cases rest <;> cases hrest

theorem exists_target_of_store {content : Content} (h : d.store p content = .ok d') :
    ∃ place, d.target p = .ok place := by
  rw [store] at h
  split at h
  · cases h
  · next place htarget => exact ⟨place, htarget⟩

/-- A file that is stored where none was is the one new file. -/
theorem gains_store {content : Content} (htarget : d.target p = .ok place)
    (hfree : ∀ content', d.tree.at? place ≠ some (.file content')) (h : d.store p content = .ok d') :
    d.Gains d' fun q content' => q = place ∧ content' = content := by
  rw [store, htarget] at h
  dsimp only at h
  split at h
  · cases h
  · next hdir =>
    split at h
    · cases h
    · obtain rfl := Except.ok.inj h
      -- neither a file nor a directory is in the way
      have hnone : d.tree.at? place = none := by
        cases hat : d.tree.at? place with
        | none => rfl
        | some t =>
          cases t with
          | file content' => exact absurd hat (hfree content')
          | directory entries => exact absurd hat (hdir entries)
      refine (gains_put htarget hnone (FileTree.wellFormed_file content)).congr fun q content' => ?_
      constructor
      · rintro ⟨rest, rfl, hrest⟩
        cases rest with
        | nil =>
          cases hrest
          exact ⟨List.append_nil place, rfl⟩
        | cons => cases hrest
      · rintro ⟨rfl, rfl⟩
        exact ⟨[], (List.append_nil q).symm, rfl⟩

end Disk

end PromptTags
