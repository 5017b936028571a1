import PromptTags.Proofs.Files.Growth

/-! Making directories. A disk gains no file by it; the directory is there afterwards just if it does not fail, and a
directory that is there already is left as it is. -/
namespace PromptTags.Disk

variable {d d' : Disk} {p dir : Path} {place q : Location} {names : List Text}

/-! ### Directories that have to be there -/

/-- On the way to a directory there are only directories. -/
theorem directory_of_follow (h : d.tree.follow place names = some q) {entries : List (Text × FileTree)}
    (hat : d.tree.at? q = some (.directory entries)) :
    ∃ entries', d.tree.at? place = some (.directory entries') := by
  cases names with
  | nil =>
    cases h
    exact ⟨entries, hat⟩
  | cons name rest => exact FileTree.directory_of_follow_cons h

/-- A path leads to a directory if its front is written before a slash and the whole leads to one. -/
theorem HasDirectory.front {rest : Text} (h : d.HasDirectory (p ++ '/' :: rest)) (hp : p ≠ []) :
    d.HasDirectory p := by
  obtain ⟨entries, hfind⟩ := h
  obtain ⟨place, hplace, hat⟩ := exists_locate_of_find? hfind
  have hway := follow_steps hplace
  have hstart : d.start (p ++ '/' :: rest) = d.start p := by
    obtain ⟨c, cs, rfl⟩ := List.exists_cons_of_ne_nil hp
    rfl
  rw [hstart, Path.steps_append_slash, FileTree.follow_append] at hway
  obtain ⟨mid, hmid, hway⟩ := Option.bind_eq_some_iff.1 hway
  -- with a slash at the end of its front or not, the path passes through a directory there
  obtain ⟨entries', hat'⟩ := directory_of_follow hway hat
  have hlocate := locate_of_follow_steps (formFault?_front hp (formFault?_of_locate hplace)) hmid hat'
  exact ⟨entries', (find?_of_locate hlocate).trans hat'⟩

theorem HasDirectory.parent (h : d.HasDirectory p) (hparent : Path.parent? p = some dir) (hdir : dir ≠ []) :
    d.HasDirectory dir := by
  rcases Path.append_of_parent? hparent hdir with ⟨rfl, habs⟩ | ⟨rest, rfl⟩
  · -- an absolute path of one name starts at the root
    obtain ⟨entries, hfind⟩ := h
    obtain ⟨place, hplace, hat⟩ := exists_locate_of_find? hfind
    have hway := follow_steps hplace
    rw [start, if_pos habs] at hway
    obtain ⟨entries', hat'⟩ := directory_of_follow hway hat
    have hroot : d.locate ['/'] = .ok [] := locate_of_follow_steps (by decide) rfl hat'
    exact ⟨entries', (find?_of_locate hroot).trans hat'⟩
  · exact h.front hdir

theorem hasDirectory_of_makeDirectory (h : d.makeDirectory p = .ok d') : d'.HasDirectory p := by
  have hgains := gains_makeDirectory h
  rw [makeDirectory] at h
  split at h
  · cases h
  · next place htarget =>
    split at h
    · cases h
    · obtain rfl := Except.ok.inj h
      obtain ⟨before, name, dir, entries, hsteps, hform, hdir, hat, hdot, hup, rfl⟩ := target_eq_ok htarget
      -- the path leads into the directory as before, and by its last name to the new one
      obtain ⟨entries', hat', -⟩ := hgains.keeps dir entries hat
      have hnode := FileTree.at?_put hat name (.directory [])
      have hway : (d.tree.put (dir ++ [name]) (.directory [])).follow (d.start p) (Path.steps p) =
          some (dir ++ [name]) := by
        rw [Path.steps, hsteps, FileTree.follow_append, hgains.keeps.follow hdir]
        exact FileTree.follow_name hdot hup hat' hnode
      exact ⟨[], (find?_of_locate (locate_of_follow_steps hform hway hnode)).trans hnode⟩

/-- Where something is found by its names from a directory, there is the directory. -/
theorem hasDirectory_of_isSome_join (hdir : dir ≠ []) (hnames : ∀ name ∈ names, Path.IsName name)
    (hne : names ≠ []) (h : (d.find? (Path.join dir (Path.ofNames names))).isSome = true) : d.HasDirectory dir := by
  have hrelative := Path.isAbsolute_ofNames hnames
  obtain ⟨first, rest, rfl⟩ := List.exists_cons_of_ne_nil hne
  obtain ⟨t, hfind⟩ := Option.isSome_iff_exists.1 h
  obtain ⟨place, hplace, -⟩ := exists_locate_of_find? hfind
  have hway := follow_steps hplace
  rw [d.start_join hdir hrelative, Path.steps_join dir hrelative, Path.steps_ofNames hnames,
    FileTree.follow_append] at hway
  obtain ⟨q, hq, hway⟩ := Option.bind_eq_some_iff.1 hway
  obtain ⟨entries, hat⟩ := FileTree.directory_of_follow_cons hway
  obtain ⟨behind, hbehind⟩ := Path.exists_join_eq_append dir hrelative
  have hform := formFault?_front hdir (hbehind ▸ formFault?_of_locate hplace)
  exact ⟨entries, (find?_of_locate (locate_of_follow_steps hform hq hat)).trans hat⟩

/-! ### Where a new node would go -/

theorem target_of_steps_nil (hform : formFault? p = none) (hsteps : Path.steps p = []) :
    d.target p = .error .taken := by
  have hlast : (Path.steps p).getLast? = none := by rw [hsteps, List.getLast?_nil]
  rw [Path.steps] at hlast
  simp only [target, hform, hlast]

theorem target_of_steps_concat {before : List Text} {last : Text} {entries : List (Text × FileTree)}
    (hform : formFault? p = none) (hsteps : Path.steps p = before ++ [last])
    (hway : d.tree.follow (d.start p) before = some place) (hat : d.tree.at? place = some (.directory entries)) :
    d.target p =
      if last = ['.'] ∨ last = ['.', '.'] then .error .taken
      else if isOverlong last then .error .tooLong
      else .ok (place ++ [last]) := by
  have hlast : (Path.steps p).getLast? = some last := by rw [hsteps, List.getLast?_concat]
  have hfront : (Path.steps p).dropLast = before := by rw [hsteps, List.dropLast_concat]
  have hstay : d.tree.follow (d.start p) (before ++ [['.']]) = some place := by
    rw [FileTree.follow_append, hway, Option.bind_some]
    simp [FileTree.follow, hat]
  rw [Path.steps] at hlast hfront
  simp only [target, hform, hlast, hfront, hstay]

/-- A directory is not made again, and that is not for want of a directory to make it in. -/
theorem HasDirectory.makeDirectory (h : d.HasDirectory p) :
    ∃ fault, d.makeDirectory p = .error fault ∧ fault ≠ .notFound := by
  obtain ⟨entries, hfind⟩ := h
  obtain ⟨place, hplace, hat⟩ := exists_locate_of_find? hfind
  have hway := follow_steps hplace
  have hform := formFault?_of_locate hplace
  rw [Disk.makeDirectory]
  rcases List.eq_nil_or_concat' (Path.steps p) with hsteps | ⟨before, last, hsteps⟩
  · rw [target_of_steps_nil hform hsteps]
    exact ⟨.taken, rfl, by decide⟩
  · rw [hsteps, FileTree.follow_append] at hway
    obtain ⟨dir, hdir, hway⟩ := Option.bind_eq_some_iff.1 hway
    obtain ⟨inner, hinner⟩ := FileTree.directory_of_follow_cons hway
    rw [target_of_steps_concat hform hsteps hdir hinner]
    by_cases hdots : last = ['.'] ∨ last = ['.', '.']
    · rw [if_pos hdots]
      exact ⟨.taken, rfl, by decide⟩
    · by_cases hlong : isOverlong last = true
      · rw [if_neg hdots, if_pos hlong]
        exact ⟨.tooLong, rfl, by decide⟩
      · -- the directory itself is in the way
        have hname := isName_of_target hsteps (not_or.1 hdots).1 (not_or.1 hdots).2
        obtain rfl := FileTree.eq_append_of_follow (List.forall_mem_singleton.2 hname) hway
        rw [if_neg hdots, if_neg hlong]
        simp only [hat, Option.isSome_some, if_true]
        exact ⟨.taken, rfl, by decide⟩

/-- What cannot be made for want of a directory to make it in is not there. -/
theorem not_hasDirectory_of_missing (h : d.makeDirectory p = .error .notFound) : ¬ d.HasDirectory p := by
  intro hp
  obtain ⟨fault, hfault, hne⟩ := hp.makeDirectory
  rw [h] at hfault
  exact hne (Except.error.inj hfault).symm

/-! ### Making one directory -/

/-- What making a directory with all those it has to stand in, or finding it there, leaves of a disk. -/
structure Ensures (d : Disk) (p : Path) (made : Except FileFault Unit × Disk) : Prop where
  gains : d.Gains made.2 noFile
  ok : made.1 = .ok () → p ≠ [] → made.2.HasDirectory p
  error : ∀ fault, made.1 = .error fault → ¬ made.2.HasDirectory p
  present : d.HasDirectory p → made = (.ok (), d)

theorem kindOf_eq_directory_iff : (d.find? p).map kindOf = some .directory ↔ d.HasDirectory p := by
  rw [HasDirectory]
  rcases d.find? p with _ | _ | entries <;> simp [kindOf]

open FileAccess (ensureDirectory makeDirectories)

theorem makeDirectory_run_of_ok (h : d.makeDirectory p = .ok d') :
    (FileAccess.makeDirectory p : StateM Disk _) d = (.ok (), d') := by
  have hrun : (FileAccess.makeDirectory p : StateM Disk _) d = attempt (fun d => d.makeDirectory p) d := rfl
  rw [hrun, attempt, h]

theorem makeDirectory_run_of_error {fault : FileFault} (h : d.makeDirectory p = .error fault) :
    (FileAccess.makeDirectory p : StateM Disk _) d = (.error fault, d) := by
  have hrun : (FileAccess.makeDirectory p : StateM Disk _) d = attempt (fun d => d.makeDirectory p) d := rfl
  rw [hrun, attempt, h]

/-- What is made of the fault with which a directory was not made: it may be there. -/
theorem isDirectory_run (p : Path) (d : Disk) (fault : FileFault) :
    (do if ← FileAccess.isDirectory p then return .ok () else return .error fault :
        StateM Disk (Except FileFault Unit)) d =
      if (d.find? p).map kindOf = some .directory then (.ok (), d) else (.error fault, d) := by
  rw [bind_apply]
  have hrun : (FileAccess.isDirectory p : StateM Disk Bool) d =
      (decide ((d.find? p).map kindOf = some .directory), d) := rfl
  rw [hrun]
  by_cases h : (d.find? p).map kindOf = some .directory <;> simp [h] <;> rfl

theorem ensures_of_makeDirectory (h : d.makeDirectory p = .ok d') : d.Ensures p (.ok (), d') where
  gains := gains_makeDirectory h
  ok _ _ := hasDirectory_of_makeDirectory h
  error _ herror := nomatch herror
  present hp := by
    obtain ⟨fault, hfault, -⟩ := hp.makeDirectory
    rw [h] at hfault
    cases hfault

/-- A directory that is not made may be there already; if it is not, it is missing. -/
theorem ensures_of_isDirectory (p : Path) (d : Disk) (fault : FileFault) :
    d.Ensures p (if (d.find? p).map kindOf = some .directory then (.ok (), d) else (.error fault, d)) := by
  split
  · next hkind => exact ⟨.refl d, fun _ _ => kindOf_eq_directory_iff.1 hkind, nofun, fun _ => rfl⟩
  · next hkind =>
    have hnot : ¬ d.HasDirectory p := fun hp => hkind (kindOf_eq_directory_iff.2 hp)
    exact ⟨.refl d, nofun, fun _ _ => hnot, fun hp => absurd hp hnot⟩

theorem ensures_ensureDirectory (p : Path) (d : Disk) : d.Ensures p ((ensureDirectory p : StateM Disk _) d) := by
  rw [ensureDirectory, bind_apply]
  cases h : d.makeDirectory p with
  | ok d' =>
    rw [makeDirectory_run_of_ok h]
    exact ensures_of_makeDirectory h
  | error fault =>
    rw [makeDirectory_run_of_error h]
    dsimp only
    rw [isDirectory_run]
    exact ensures_of_isDirectory p d fault

/-! ### Making all directories of a path -/

theorem makeDirectories_nil (d : Disk) : (makeDirectories [] : StateM Disk _) d = (.ok (), d) := by
  rw [makeDirectories]
  rfl

theorem makeDirectories_run_of_ok (hp : p ≠ []) (h : d.makeDirectory p = .ok d') :
    (makeDirectories p : StateM Disk _) d = (.ok (), d') := by
  rw [makeDirectories, if_neg (by simpa using hp), bind_apply, makeDirectory_run_of_ok h]
  rfl

theorem makeDirectories_run_of_missing (hp : p ≠ []) (h : d.makeDirectory p = .error .notFound) :
    (makeDirectories p : StateM Disk _) d =
      match Path.parent? p with
      | none => (.error (.other "no directory to start from"), d)
      | some dir =>
        match (makeDirectories dir : StateM Disk _) d with
        | (.error fault, d') => (.error fault, d')
        | (.ok (), d') => (ensureDirectory p : StateM Disk _) d' := by
  rw [makeDirectories, if_neg (by simpa using hp), bind_apply, makeDirectory_run_of_error h]
  dsimp only
  split
  · next hparent =>
    rw [hparent]
    rfl
  · next dir hparent =>
    rw [hparent]
    dsimp only
    rw [bind_apply]
    rcases (makeDirectories dir : StateM Disk _) d with ⟨_ | _, d'⟩ <;> rfl

/-- Where a directory comes about by its parent being made, that is all that is made. -/
theorem makeDirectories_run_of_parent {dir : Path} (hp : p ≠ []) (h : d.makeDirectory p = .error .notFound)
    (hparent : Path.parent? p = some dir) (hdir : (makeDirectories dir : StateM Disk _) d = (.ok (), d'))
    (hthere : d'.HasDirectory p) : (makeDirectories p : StateM Disk _) d = (.ok (), d') := by
  rw [makeDirectories_run_of_missing hp h, hparent]
  dsimp only
  rw [hdir]
  exact (ensures_ensureDirectory p d').present hthere

theorem makeDirectories_run_of_fault (hp : p ≠ []) {fault : FileFault} (h : d.makeDirectory p = .error fault)
    (hfault : fault ≠ .notFound) :
    (makeDirectories p : StateM Disk _) d =
      if (d.find? p).map kindOf = some .directory then (.ok (), d) else (.error fault, d) := by
  rw [makeDirectories, if_neg (by simpa using hp), bind_apply, makeDirectory_run_of_error h, ← isDirectory_run]
  cases fault <;> first | exact absurd rfl hfault | (dsimp only)

/-- Making directories fails just if the directory is missing in the end. -/
theorem ensures_makeDirectories (p : Path) (d : Disk) : d.Ensures p ((makeDirectories p : StateM Disk _) d) := by
  by_cases hp : p = []
  · rw [hp, makeDirectories_nil]
    exact ⟨.refl d, fun _ hne => absurd rfl hne, nofun, fun _ => rfl⟩
  · cases h : d.makeDirectory p with
    | ok d' =>
      rw [makeDirectories_run_of_ok hp h]
      exact ensures_of_makeDirectory h
    | error fault =>
      by_cases hmissing : fault = .notFound
      · subst hmissing
        have habsent := not_hasDirectory_of_missing h
        rw [makeDirectories_run_of_missing hp h]
        split
        · exact ⟨.refl d, nofun, fun _ _ => habsent, fun hthere => absurd hthere habsent⟩
        · next dir hparent =>
          -- the directory is made first that this one is to stand in
          have hmade := ensures_makeDirectories dir d
          split
          · next fault d' hrun =>
            have hdir : dir ≠ [] := by
              rintro rfl
              rw [makeDirectories_nil] at hrun
              cases hrun
            rw [hrun] at hmade
            exact ⟨hmade.gains, nofun, fun _ _ hthere => hmade.error fault rfl (hthere.parent hparent hdir),
              fun hthere => absurd hthere habsent⟩
          · next d' hrun =>
            rw [hrun] at hmade
            have hensures := ensures_ensureDirectory p d'
            exact ⟨hmade.gains.trans_noFile hensures.gains, hensures.ok, hensures.error,
              fun hthere => absurd hthere habsent⟩
      · rw [makeDirectories_run_of_fault hp h hmissing]
        exact ensures_of_isDirectory p d fault
termination_by p.length
decreasing_by exact Path.length_lt_of_parent? ‹_›

/-- The disk after an attempt to make a directory with all those it has to stand in. -/
def withDirectories (d : Disk) (p : Path) : Disk := ((makeDirectories p : StateM Disk _) d).2

theorem gains_withDirectories (d : Disk) (p : Path) : d.Gains (d.withDirectories p) noFile :=
  (ensures_makeDirectories p d).gains

theorem withDirectories_of_hasDirectory (h : d.HasDirectory p) : d.withDirectories p = d :=
  congrArg Prod.snd ((ensures_makeDirectories p d).present h)

end PromptTags.Disk
