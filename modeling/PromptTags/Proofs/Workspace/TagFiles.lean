import Mathlib.Data.List.Sort
import PromptTags.Proofs.Dictionary.Load
import PromptTags.Proofs.Files.Tree
import PromptTags.Proofs.Text.Order
import PromptTags.Proofs.Workspace.Stored
import PromptTags.Workspace.Commands

/-! The tag files of a directory, and the dictionary that is loaded from them. Which files they are is said by their
names alone, and their order by the names, so it does not matter in which order the directory gives them. Of the
tag files of one namespace the greatest that loads is kept. -/
namespace PromptTags

def IsTagExtension (ext : Text) : Prop := ext = Text.lit "yml" ∨ ext = Text.lit "yaml"

/-- A file name with the extension of a tag file behind something. -/
def IsTagName (name : Text) : Prop := ∃ base ext, name = base ++ '.' :: ext ∧ base ≠ [] ∧ IsTagExtension ext

theorem isAny_tagFileExtensions {ext : Text} :
    Text.isAny tagFileExtensions ext = true ↔ IsTagExtension ext := by
  rw [Text.isAny, tagFileExtensions, List.any_cons, List.any_cons, List.any_nil, Bool.or_false,
    Bool.or_eq_true, decide_eq_true_iff, decide_eq_true_iff, IsTagExtension, @eq_comm _ ext, @eq_comm _ ext]

theorem IsTagExtension.noDot {ext : Text} (h : IsTagExtension ext) : '.' ∉ ext := by
  rcases h with rfl | rfl <;> decide

/-- A name is that of a tag file just if what it is cut into ends with the extension of one. -/
theorem isTagName_iff {name : Text} :
    IsTagName name ↔ ∃ base ext, Path.cutName name = (base, some ext) ∧ IsTagExtension ext := by
  constructor
  · rintro ⟨base, ext, hname, hbase, hext⟩
    exact ⟨base, ext, Path.cutName_eq_some_iff.2 ⟨hname, hbase, hext.noDot⟩, hext⟩
  · rintro ⟨base, ext, hcut, hext⟩
    obtain ⟨hname, hbase, -⟩ := Path.cutName_eq_some_iff.1 hcut
    exact ⟨base, ext, hname, hbase, hext⟩

theorem isTagFile_iff {p : Path} :
    isTagFile p = true ↔ ∃ name, Path.fileName? p = some name ∧ IsTagName name := by
  rw [isTagFile, Path.extension?]
  cases Path.fileName? p with
  | none => simp
  | some name =>
    rw [Option.bind_some]
    simp only [Option.some.injEq, exists_eq_left', isTagName_iff]
    rcases Path.cutName name with ⟨base, _ | ext⟩
    · simp
    · simp [isAny_tagFileExtensions]

namespace TagFiles

variable {dir : Path} {names : List Text} {files files' : List (List Text)}

/-- Names that lead from a directory to one of its tag files: the last is that of a tag file, and none of the others
is hidden. -/
def IsTagPath (names : List Text) : Prop :=
  ∃ dirs name, names = dirs ++ [name] ∧ IsTagName name ∧ ∀ dir ∈ dirs, dir.head? ≠ some '.'

theorem admits_iff (hne : names ≠ []) (h : ∀ name ∈ names, Path.IsName name) :
    admits dir names = true ↔ IsTagPath names := by
  obtain ⟨dirs, name, rfl⟩ := (List.eq_nil_or_concat' names).resolve_left hne
  have hname : isTagFile (Path.join dir (Path.ofNames (dirs ++ [name]))) = true ↔ IsTagName name := by
    rw [isTagFile_iff, Path.fileName?_join_ofNames dir h]
    simp
  have hhidden : (!(dirs ++ [name]).dropLast.any isHidden) = true ↔ ∀ dir ∈ dirs, dir.head? ≠ some '.' := by
    simp [isHidden]
  rw [admits, Bool.and_eq_true, hname, hhidden]
  constructor
  · rintro ⟨hname, hdirs⟩
    exact ⟨dirs, name, rfl, hname, hdirs⟩
  · rintro ⟨dirs', name', heq, hname, hdirs⟩
    obtain ⟨rfl, hlast⟩ := List.append_inj' heq rfl
    cases hlast
    exact ⟨hname, hdirs⟩

/-! ### Order -/

def NotAfter (a b : List Text) : Prop := ¬ b < a

instance : DecidableRel NotAfter := fun a b => inferInstanceAs (Decidable (¬ b < a))

instance : Std.Total NotAfter where
  total _ _ := or_iff_not_imp_left.2 fun h => List.lt_asymm (Decidable.not_not.1 h)

instance : IsTrans (List Text) NotAfter where
  trans _ _ _ h h' := List.not_lt.2 (List.le_trans (List.not_lt.1 h) (List.not_lt.1 h'))

theorem insert_eq_orderedInsert (names : List Text) (files : List (List Text)) :
    insert names files = files.orderedInsert NotAfter names := by
  induction files with
  | nil => rfl
  | cons other rest ih =>
    rw [insert, List.orderedInsert_cons, ih]
    exact (ite_not _ _ _).symm

theorem sort_eq_insertionSort (files : List (List Text)) : sort files = files.insertionSort NotAfter := by
  induction files with
  | nil => rfl
  | cons names rest ih => rw [List.insertionSort_cons, ← ih, ← insert_eq_orderedInsert]; rfl

theorem perm_select (dir : Path) (files : List (List Text)) :
    (select dir files).Perm (files.filter (admits dir)) := by
  rw [select, sort_eq_insertionSort]
  exact List.perm_insertionSort _ _

theorem pairwise_notAfter_select (dir : Path) (files : List (List Text)) :
    (select dir files).Pairwise NotAfter := by
  rw [select, sort_eq_insertionSort]
  exact List.pairwise_insertionSort _ _

theorem eq_of_notAfter {a b : List Text} (h : NotAfter a b) (h' : NotAfter b a) : a = b :=
  List.le_antisymm (List.not_lt.1 h) (List.not_lt.1 h')

/-- The order in which files are found does not matter. -/
theorem select_eq_of_perm (dir : Path) (h : files.Perm files') : select dir files = select dir files' := by
  have hperm : (select dir files).Perm (select dir files') :=
    ((perm_select dir files).trans (h.filter _)).trans (perm_select dir files').symm
  exact hperm.eq_of_pairwise (fun a b _ _ => eq_of_notAfter) (pairwise_notAfter_select dir files)
    (pairwise_notAfter_select dir files')

theorem mem_select : names ∈ select dir files ↔ names ∈ files ∧ admits dir names = true := by
  rw [(perm_select dir files).mem_iff, List.mem_filter]

/-- Files that are found once are listed in strictly increasing order. -/
theorem pairwise_select (h : files.Nodup) (dir : Path) : (select dir files).Pairwise (· < ·) := by
  have hnodup : (select dir files).Nodup := (perm_select dir files).nodup_iff.2 (h.filter _)
  refine ((pairwise_notAfter_select dir files).and hnodup).imp fun hab => ?_
  exact Decidable.not_not.1 fun hlt => hab.2 (eq_of_notAfter hab.1 hlt)

/-! ### The walk through a directory -/

/-- The order of files by the octets of their names, directory by directory. -/
def Precedes (a b : List Text) : Prop := a.map Text.octets < b.map Text.octets

theorem precedes_of_lt {a b : List Text} (h : a < b) : Precedes a b := by
  induction a generalizing b with
  | nil =>
    cases b with
    | nil => exact absurd h (List.lt_irrefl _)
    | cons => exact List.nil_lt_cons _ _
  | cons k ks ih =>
    cases b with
    | nil => cases h
    | cons l ls =>
      rcases List.cons_lt_cons_iff.1 h with hk | ⟨rfl, hks⟩
      · exact Text.map_octets_lt [] hk ks ls
      · exact List.cons_lt_cons_iff.2 (.inr ⟨rfl, ih hks⟩)

variable {order : Path → Disk → List (List Text)} {keying : Keying} {d : Disk}

/-- The tag files below a directory, as the names that lead to them. -/
def listed (d : Disk) (dir : Path) : List (List Text) := select dir (d.filesBelow dir)

theorem collect_fst (d : Disk) (dir : Path) :
    ((collect dir : StateM Disk _) d).1 = (listed d dir).map Path.ofNames := rfl

section Below

variable {entries : List (Text × FileTree)}

theorem wellFormed_below {t : FileTree} (hd : d.tree.WellFormed) (hdir : d.find? dir = some t) : t.WellFormed := by
  rw [Disk.find?] at hdir
  split at hdir
  · exact hd.at? hdir
  · cases hdir

theorem nodup_filesBelow (hd : d.tree.WellFormed) (dir : Path) : (d.filesBelow dir).Nodup := by
  rw [Disk.filesBelow]
  split
  · next hdir => exact FileTree.nodup_files (wellFormed_below hd hdir)
  · exact List.nodup_nil

/-- The tag files of a directory are the files below it to which the names of a tag file lead. -/
theorem mem_listed (hd : d.tree.WellFormed) (hdir : d.find? dir = some (.directory entries)) :
    names ∈ listed d dir ↔
      (∃ content, (FileTree.directory entries).at? names = some (.file content)) ∧ IsTagPath names := by
  have hwell := wellFormed_below hd hdir
  rw [listed, mem_select, Disk.filesBelow, hdir]
  dsimp only
  rw [FileTree.mem_files hwell]
  refine and_congr_right fun ⟨content, hat⟩ => admits_iff ?_ (hwell.isName hat)
  rintro rfl
  cases hat

theorem pairwise_listed (hd : d.tree.WellFormed) (dir : Path) : (listed d dir).Pairwise Precedes :=
  (pairwise_select (nodup_filesBelow hd dir) dir).imp precedes_of_lt

end Below

end TagFiles

end PromptTags
