import Mathlib.Data.List.Nodup
import PromptTags.Proofs.Files.Disk
import PromptTags.Proofs.Files.Path

/-! File trees with names that can be told apart. There a node is listed among the files if and only if a file
stands at its location. Putting a node under a name changes no file anywhere else, and keeps the names as they
have to be. -/
namespace PromptTags.FileTree

variable {t node : FileTree} {entries : List (Text × FileTree)} {name : Text} {place : Location}

/-- Every directory has different names for its entries, and each is a name that leads to its entry. -/
def WellFormed (t : FileTree) : Prop :=
  ∀ place entries, t.at? place = some (directory entries) →
    (entries.map Prod.fst).Nodup ∧ ∀ entry ∈ entries, Path.IsName entry.1

theorem lookup_eq_some_iff (h : (entries.map Prod.fst).Nodup) :
    entries.lookup name = some node ↔ (name, node) ∈ entries := by
  induction entries with
  | nil => simp
  | cons e entries ih =>
    obtain ⟨first, v⟩ := e
    obtain ⟨hfirst, hrest⟩ := List.nodup_cons.1 h
    rw [lookup_cons_eq_ite, List.mem_cons]
    split
    · next heq =>
      subst heq
      have hnot : (name, node) ∉ entries := fun hmem => hfirst (List.mem_map.2 ⟨_, hmem, rfl⟩)
      simp [hnot, eq_comm]
    · next hne =>
      rw [ih hrest]
      simp [hne]

theorem wellFormed_file (content : Content) : (file content).WellFormed := by
  intro place entries h
  cases place <;> cases h

theorem WellFormed.at? (h : t.WellFormed) (hat : t.at? place = some node) : node.WellFormed := by
  intro below entries hbelow
  exact h (place ++ below) entries (by rw [at?_append, hat, Option.bind_some, hbelow])

theorem wellFormed_directory_iff :
    (directory entries).WellFormed ↔
      (entries.map Prod.fst).Nodup ∧ ∀ entry ∈ entries, Path.IsName entry.1 ∧ entry.2.WellFormed := by
  constructor
  · intro h
    obtain ⟨hnodup, hnames⟩ := h [] entries rfl
    refine ⟨hnodup, fun entry hentry => ⟨hnames entry hentry, ?_⟩⟩
    have hat : (directory entries).at? [entry.1] = some entry.2 := by
      rw [at?_cons, (lookup_eq_some_iff hnodup).2 hentry]
      rfl
    exact h.at? hat
  · rintro ⟨hnodup, hentries⟩ (_ | ⟨first, rest⟩) found hfound
    · obtain rfl : entries = found := by simpa [FileTree.at?] using hfound
      exact ⟨hnodup, fun entry hentry => (hentries entry hentry).1⟩
    · rw [at?_cons] at hfound
      obtain ⟨child, hchild, hfound⟩ := Option.bind_eq_some_iff.1 hfound
      exact (hentries _ ((lookup_eq_some_iff hnodup).1 hchild)).2 rest found hfound

mutual

def decideWellFormed (t : FileTree) : Decidable t.WellFormed :=
  match t with
  | file content => isTrue (wellFormed_file content)
  | directory entries =>
    haveI := decideEntriesWellFormed entries
    decidable_of_iff _ wellFormed_directory_iff.symm

def decideEntriesWellFormed (entries : List (Text × FileTree)) :
    Decidable (∀ entry ∈ entries, Path.IsName entry.1 ∧ entry.2.WellFormed) :=
  match entries with
  | [] => isTrue fun _ h => absurd h List.not_mem_nil
  | (_, t) :: rest =>
    haveI := decideWellFormed t
    haveI := decideEntriesWellFormed rest
    decidable_of_iff _ List.forall_mem_cons.symm

end

instance (t : FileTree) : Decidable t.WellFormed := decideWellFormed t

/-- Every name on the way to a node is one that leads somewhere. -/
theorem WellFormed.isName (h : t.WellFormed) (hat : t.at? place = some node) :
    ∀ name ∈ place, Path.IsName name := by
  induction place generalizing t with
  | nil => exact fun name hname => absurd hname List.not_mem_nil
  | cons first rest ih =>
    cases t with
    | file content => cases hat
    | directory entries =>
      obtain ⟨hnodup, hentries⟩ := wellFormed_directory_iff.1 h
      rw [at?_cons] at hat
      obtain ⟨child, hchild, hat⟩ := Option.bind_eq_some_iff.1 hat
      obtain ⟨hfirst, hwell⟩ := hentries _ ((lookup_eq_some_iff hnodup).1 hchild)
      intro name hname
      rcases List.mem_cons.1 hname with rfl | hname
      · exact hfirst
      · exact ih hwell hat name hname

/-! ### The files of a tree -/

theorem mem_entryFiles :
    place ∈ entryFiles entries ↔ ∃ name t rest, (name, t) ∈ entries ∧ place = name :: rest ∧ rest ∈ t.files := by
  induction entries with
  | nil => simp [entryFiles]
  | cons e entries ih =>
    obtain ⟨first, v⟩ := e
    rw [entryFiles, List.mem_append, ih]
    constructor
    · rintro (h | ⟨name, t, rest, hmem, hplace, hrest⟩)
      · obtain ⟨rest, hrest, rfl⟩ := List.mem_map.1 h
        exact ⟨first, v, rest, List.mem_cons_self, rfl, hrest⟩
      · exact ⟨name, t, rest, List.mem_cons_of_mem _ hmem, hplace, hrest⟩
    · rintro ⟨name, t, rest, hmem, rfl, hrest⟩
      rcases List.mem_cons.1 hmem with heq | hmem
      · cases heq
        exact .inl (List.mem_map.2 ⟨rest, hrest, rfl⟩)
      · exact .inr ⟨name, t, rest, hmem, rfl, hrest⟩

/-- The files of a tree are listed by their locations. -/
theorem mem_files (h : t.WellFormed) : place ∈ t.files ↔ ∃ content, t.at? place = some (file content) := by
  induction place generalizing t with
  | nil =>
    cases t with
    | file content => simp [files, FileTree.at?]
    | directory entries => simp [files, mem_entryFiles, FileTree.at?]
  | cons first rest ih =>
    cases t with
    | file content => simp [files, FileTree.at?]
    | directory entries =>
      obtain ⟨hnodup, hentries⟩ := wellFormed_directory_iff.1 h
      rw [files, mem_entryFiles, at?_cons]
      constructor
      · rintro ⟨name, child, below, hmem, heq, hbelow⟩
        cases heq
        obtain ⟨content, hat⟩ := (ih (hentries _ hmem).2).1 hbelow
        exact ⟨content, by rw [(lookup_eq_some_iff hnodup).2 hmem, Option.bind_some, hat]⟩
      · rintro ⟨content, hat⟩
        obtain ⟨child, hchild, hat⟩ := Option.bind_eq_some_iff.1 hat
        have hmem := (lookup_eq_some_iff hnodup).1 hchild
        exact ⟨first, child, rest, hmem, rfl, (ih (hentries _ hmem).2).2 ⟨content, hat⟩⟩

mutual

/-- No file is listed twice. -/
theorem nodup_files {t : FileTree} (h : t.WellFormed) : t.files.Nodup := by
  match t with
  | file content => exact List.nodup_singleton _
  | directory entries =>
    obtain ⟨hnodup, hentries⟩ := wellFormed_directory_iff.1 h
    exact nodup_entryFiles hnodup fun entry hentry => (hentries entry hentry).2

theorem nodup_entryFiles {entries : List (Text × FileTree)} (hnodup : (entries.map Prod.fst).Nodup)
    (h : ∀ entry ∈ entries, entry.2.WellFormed) : (entryFiles entries).Nodup := by
  match entries with
  | [] => exact List.nodup_nil
  | (name, t) :: rest =>
    obtain ⟨hname, hrest⟩ := List.nodup_cons.1 hnodup
    have hhead := nodup_files (h (name, t) List.mem_cons_self)
    have htail := nodup_entryFiles hrest fun entry hentry => h entry (List.mem_cons_of_mem _ hentry)
    have hmap : (t.files.map (name :: ·)).Nodup := hhead.map List.cons_injective
    refine List.nodup_append.2 ⟨hmap, htail, ?_⟩
    rintro a ha b hb rfl
    -- the rest lists nothing under the first name
    obtain ⟨below, -, rfl⟩ := List.mem_map.1 ha
    obtain ⟨name', t', rest', hmem, heq, -⟩ := mem_entryFiles.1 hb
    cases heq
    exact hname (List.mem_map.2 ⟨_, hmem, rfl⟩)

end

/-! ### Putting a node under a name -/

/-- After a node is put under a name the files are those within the node, and those that stood elsewhere. -/
theorem at?_put_eq_file_iff {dir : Location} (h : t.at? dir = some (directory entries)) {content : Content} :
    (t.put (dir ++ [name]) node).at? place = some (file content) ↔
      (∃ rest, place = dir ++ name :: rest ∧ node.at? rest = some (file content)) ∨
        ¬ dir ++ [name] <+: place ∧ t.at? place = some (file content) := by
  induction dir generalizing t place with
  | nil =>
    obtain rfl : t = directory entries := Option.some.inj h
    cases place with
    | nil => simp [put, FileTree.at?]
    | cons k rest =>
      rw [List.nil_append, put, at?_cons, lookup_putEntry]
      by_cases hk : k = name
      · subst hk
        simp
      · simp [hk, at?_cons, Ne.symm hk]
  | cons first dir ih =>
    cases t with
    | file content => cases h
    | directory siblings =>
      rw [at?_cons] at h
      obtain ⟨child, hchild, h⟩ := Option.bind_eq_some_iff.1 h
      cases place with
      | nil =>
        obtain ⟨next, rest, hrest⟩ := List.exists_cons_of_ne_nil (l := dir ++ [name]) (by simp)
        rw [List.cons_append, hrest, put]
        simp [FileTree.at?]
      | cons k rest =>
        rw [List.cons_append, at?_put_cons _ _ (by simp)]
        by_cases hk : k = first
        · subst hk
          rw [hchild, Option.bind_some] at h
          rw [if_pos rfl, hchild, Option.bind_some, ih h, at?_cons, hchild, Option.bind_some]
          simp [List.cons_prefix_cons]
        · rw [if_neg hk]
          simp [List.cons_prefix_cons, Ne.symm hk, hk]

theorem mem_putEntry {entry : Text × FileTree} (h : entry ∈ putEntry name node entries) :
    entry = (name, node) ∨ entry ∈ entries := by
  induction entries with
  | nil => exact .inl (List.mem_singleton.1 h)
  | cons e entries ih =>
    rw [putEntry] at h
    split at h
    · next hname =>
      subst hname
      rcases List.mem_cons.1 h with h | h
      · exact .inl h
      · exact .inr (List.mem_cons_of_mem _ h)
    · rcases List.mem_cons.1 h with h | h
      · exact .inr (h ▸ List.mem_cons_self)
      · exact (ih h).imp_right (List.mem_cons_of_mem _)

theorem nodup_putEntry (h : (entries.map Prod.fst).Nodup) (name : Text) (node : FileTree) :
    ((putEntry name node entries).map Prod.fst).Nodup := by
  induction entries with
  | nil => exact List.nodup_singleton _
  | cons e entries ih =>
    obtain ⟨hfirst, hrest⟩ := List.nodup_cons.1 h
    rw [putEntry]
    split
    · exact List.nodup_cons.2 ⟨hfirst, hrest⟩
    · next hne =>
      refine List.nodup_cons.2 ⟨fun hmem => ?_, ih hrest⟩
      obtain ⟨entry, hentry, heq⟩ := List.mem_map.1 hmem
      rcases mem_putEntry hentry with rfl | hentry
      · exact hne heq
      · exact hfirst (List.mem_map.2 ⟨entry, hentry, heq⟩)

/-- A change of the node under a name changes no names. -/
theorem map_fst_changeEntry (name : Text) (f : FileTree → FileTree) (entries : List (Text × FileTree)) :
    (entries.map fun e => if e.1 = name then (e.1, f e.2) else e).map Prod.fst = entries.map Prod.fst := by
  rw [List.map_map]
  apply List.map_congr_left
  intro e _
  dsimp only [Function.comp]
  split <;> rfl

/-- Names stay as they have to be when a well-formed node is put under one that leads somewhere. -/
theorem wellFormed_put (h : t.WellFormed) (hname : Path.IsName name) (hnode : node.WellFormed)
    (dir : Location) : (t.put (dir ++ [name]) node).WellFormed := by
  induction dir generalizing t with
  | nil =>
    cases t with
    | file content => exact h
    | directory entries =>
      obtain ⟨hnodup, hentries⟩ := wellFormed_directory_iff.1 h
      refine wellFormed_directory_iff.2 ⟨nodup_putEntry hnodup name node, fun entry hentry => ?_⟩
      rcases mem_putEntry hentry with rfl | hentry
      · exact ⟨hname, hnode⟩
      · exact hentries entry hentry
  | cons first dir ih =>
    cases t with
    | file content => exact h
    | directory entries =>
      obtain ⟨hnodup, hentries⟩ := wellFormed_directory_iff.1 h
      obtain ⟨next, rest, hrest⟩ := List.exists_cons_of_ne_nil (l := dir ++ [name]) (by simp)
      rw [List.cons_append, hrest, put, ← hrest, wellFormed_directory_iff]
      refine ⟨map_fst_changeEntry first (fun v => v.put (dir ++ [name]) node) entries ▸ hnodup, ?_⟩
      intro entry hentry
      obtain ⟨e, he, rfl⟩ := List.mem_map.1 hentry
      obtain ⟨hkey, hwell⟩ := hentries e he
      split
      · exact ⟨hkey, ih hwell⟩
      · exact ⟨hkey, hwell⟩

end PromptTags.FileTree
