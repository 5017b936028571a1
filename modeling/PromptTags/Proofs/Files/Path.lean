import PromptTags.Files.Path
import PromptTags.Proofs.Text.Parts

/-! Paths by their names. The pieces of a path between its slashes are those of the directory it is taken from and
then its own; a path that is joined from names has these names for its components, and the parent of a path is its
front. -/
namespace PromptTags

/-- No piece of a text has the separator in it. -/
theorem Text.notMem_of_mem_split {sep : Char} {t piece : Text} (h : piece ∈ split sep t) : sep ∉ piece := by
  induction t generalizing piece with
  | nil =>
    rw [List.mem_singleton.1 h]
    exact List.not_mem_nil
  | cons c cs ih =>
    rw [split] at h
    split at h
    · rcases List.mem_cons.1 h with rfl | h
      · exact List.not_mem_nil
      · exact ih h
    · next hc =>
      cases hs : split sep cs with
      | nil => exact absurd hs (split_ne_nil sep cs)
      | cons first rest =>
        rw [hs] at h
        rcases List.mem_cons.1 h with rfl | h
        · intro hmem
          rcases List.mem_cons.1 hmem with rfl | hmem
          · exact hc rfl
          · exact ih (hs ▸ List.mem_cons_self) hmem
        · exact ih (hs ▸ List.mem_cons_of_mem first h)

namespace Path

/-- A name that leads from a directory to something in it. -/
structure IsName (name : Text) : Prop where
  ne_nil : name ≠ []
  noSlash : '/' ∉ name
  ne_dot : name ≠ ['.']
  ne_up : name ≠ ['.', '.']

instance (name : Text) : Decidable (IsName name) :=
  decidable_of_iff (name ≠ [] ∧ '/' ∉ name ∧ name ≠ ['.'] ∧ name ≠ ['.', '.'])
    ⟨fun ⟨h, hslash, hdot, hup⟩ => ⟨h, hslash, hdot, hup⟩, fun h => ⟨h.ne_nil, h.noSlash, h.ne_dot, h.ne_up⟩⟩

/-- The pieces of a path between its slashes, without those that are empty. -/
def steps (p : Path) : List Text := (Text.split '/' p).filter fun piece => !piece.isEmpty

/-- The pieces of a path that count for something. -/
def loud (p : Path) : List Text := (Text.split '/' p).filter fun piece => !isSilent piece

variable {dir p q : Path} {name : Text} {names : List Text}

theorem loud_eq (p : Path) : loud p = (steps p).filter fun piece => piece ≠ ['.'] := by
  rw [loud, steps, List.filter_filter]
  apply List.filter_congr
  intro piece _
  cases hdot : decide (piece = ['.']) <;> simp_all [isSilent]

theorem steps_append_slash (p q : Path) : steps (p ++ '/' :: q) = steps p ++ steps q := by
  rw [steps, Text.split_append_sep, List.filter_append]
  rfl

/-- A path that is taken from a directory has the pieces of the directory in front of its own. -/
theorem steps_join (dir : Path) (hq : isAbsolute q = false) : steps (join dir q) = steps dir ++ steps q := by
  rw [join, if_neg (by simp [hq])]
  split
  · next hend =>
    cases hlast : dir.getLast? with
    | none =>
      rw [List.getLast?_eq_none_iff.1 hlast]
      rfl
    | some c =>
      -- the slash at the end of the directory makes no piece of its own
      obtain ⟨front, rfl⟩ := List.getLast?_eq_some_iff.1 hlast
      obtain rfl : c = '/' := by simpa using hend
      have hfront : steps (front ++ ['/']) = steps front := by
        rw [steps_append_slash]
        exact List.append_nil _
      rw [hfront, List.append_assoc]
      exact steps_append_slash front q
  · exact steps_append_slash dir q

theorem loud_join (dir : Path) (hq : isAbsolute q = false) : loud (join dir q) = loud dir ++ loud q := by
  rw [loud_eq, loud_eq, loud_eq, steps_join dir hq, List.filter_append]

theorem ofNames_singleton (name : Text) : ofNames [name] = name := by
  simp [ofNames, Text.join, List.intercalate]

theorem steps_ofNames (h : ∀ name ∈ names, IsName name) : steps (ofNames names) = names := by
  cases hnames : names with
  | nil => rfl
  | cons first rest =>
    rw [← hnames, steps, ofNames, Text.split_join (by simp [hnames]) fun name hname => (h name hname).noSlash]
    exact List.filter_eq_self.2 fun name hname => by simp [(h name hname).ne_nil]

theorem loud_ofNames (h : ∀ name ∈ names, IsName name) : loud (ofNames names) = names := by
  rw [loud_eq, steps_ofNames h]
  exact List.filter_eq_self.2 fun name hname => by simp [(h name hname).ne_dot]

theorem isAbsolute_ofNames (h : ∀ name ∈ names, IsName name) : isAbsolute (ofNames names) = false := by
  cases names with
  | nil => rfl
  | cons first rest =>
    have hfirst := h first List.mem_cons_self
    obtain ⟨c, cs, rfl⟩ := List.exists_cons_of_ne_nil hfirst.ne_nil
    have hc : c ≠ '/' := fun hc => hfirst.noSlash (hc ▸ List.mem_cons_self)
    cases rest <;> simp [isAbsolute, ofNames, Text.join, List.intercalate, hc]

/-- A leading slash or dot makes no piece that counts. -/
theorem loud_eq_body (p : Path) :
    ((Text.split '/' (cutStart p).2).filter fun piece => !isSilent piece) = loud p := by
  rw [loud]
  unfold cutStart
  split <;> rfl

/-- The components of a path are its leading slash or dot and the pieces that count for something. -/
theorem components_eq (p : Path) :
    components p = startComponents (cutStart p).1 ++ (loud p).map pieceComponent := by
  simp only [components, loud_eq_body]

theorem pieceComponent_eq_name (h : IsName name) : pieceComponent name = .name name := if_neg h.ne_up

/-- The file name of a path that is joined from names is the last of them, wherever it is taken from. -/
theorem fileName?_join_ofNames (dir : Path) (h : ∀ n ∈ names ++ [name], IsName n) :
    fileName? (join dir (ofNames (names ++ [name]))) = some name := by
  have hname : IsName name := h name (List.mem_append_right names List.mem_cons_self)
  rw [fileName?, components_eq, loud_join dir (isAbsolute_ofNames h), loud_ofNames h, ← List.append_assoc,
    List.map_append, ← List.append_assoc, List.map_singleton, List.getLast?_concat,
    pieceComponent_eq_name hname]

/-! ### Directories and parents -/

/-- A path that is taken from a directory is written behind it. -/
theorem exists_join_eq_append (dir : Path) (hp : isAbsolute p = false) : ∃ rest, join dir p = dir ++ rest := by
  rw [join, if_neg (by simp [hp])]
  split
  · exact ⟨p, rfl⟩
  · exact ⟨'/' :: p, rfl⟩

/-- What comes before the last component of a path is the root, or is written in front of a slash. -/
theorem append_of_parent? (h : parent? p = some q) (hq : q ≠ []) :
    q = ['/'] ∧ isAbsolute p = true ∨ ∃ rest, p = q ++ '/' :: rest := by
  have hp := cutStart_append p
  have hstart : (cutStart p).1 = [] ∨ (cutStart p).1 = ['/'] ∧ isAbsolute p = true ∨
      (cutStart p).1 = ['.'] ∧ ((cutStart p).2 = [] ∨ ∃ rest, (cutStart p).2 = '/' :: rest) := by
    unfold cutStart
    split <;> simp [isAbsolute]
  have hbody := Text.join_split '/' (cutStart p).2
  simp only [parent?] at h
  split at h
  · split at h
    · exact absurd (Option.some.inj h).symm hq
    · cases h
  · next last before hlast =>
    obtain rfl := Option.some.inj h
    have hpieces : Text.split '/' (cutStart p).2 = (before.dropWhile isSilent).reverse ++
        ((before.takeWhile isSilent).reverse ++
          last :: ((Text.split '/' (cutStart p).2).reverse.takeWhile isSilent).reverse) := by
      rw [← List.reverse_inj, List.reverse_append, List.reverse_append, List.reverse_cons,
        List.reverse_reverse, List.reverse_reverse, List.reverse_reverse, List.append_assoc, List.append_assoc,
        List.takeWhile_append_dropWhile, List.singleton_append, ← hlast, List.takeWhile_append_dropWhile]
    by_cases hkept : (before.dropWhile isSilent).reverse = []
    · -- nothing but the start is left
      have hnone : Text.join ['/'] [] = [] := rfl
      rw [hkept, hnone, List.append_nil] at hq ⊢
      rcases hstart with hstart | ⟨hstart, habs⟩ | ⟨hstart, hrest⟩
      · exact absurd hstart hq
      · exact .inl ⟨hstart, habs⟩
      · rcases hrest with hrest | ⟨rest, hrest⟩
        · rw [hrest] at hlast
          cases hlast
        · rw [hrest] at hp
          exact .inr ⟨rest, hp.symm⟩
    · rw [hpieces, Text.join_append _ hkept] at hbody
      obtain ⟨rest, hrest⟩ : ∃ rest, ((before.takeWhile isSilent).reverse ++
          last :: ((Text.split '/' (cutStart p).2).reverse.takeWhile isSilent).reverse).flatMap (['/'] ++ ·) =
            '/' :: rest := by
        cases (before.takeWhile isSilent).reverse <;> exact ⟨_, rfl⟩
      refine .inr ⟨rest, ?_⟩
      rw [List.append_assoc, ← hrest, hbody, hp]

/-! ### Extensions -/

/-- A file name has an extension if there is a dot in it behind something, and then it is what follows the last
dot. -/
theorem cutName_eq_some_iff {stem ext : Text} :
    cutName name = (stem, some ext) ↔ name = stem ++ '.' :: ext ∧ stem ≠ [] ∧ '.' ∉ ext := by
  constructor
  · intro h
    have hcut := List.takeWhile_append_dropWhile (p := fun c : Char => decide (c ≠ '.')) (l := name.reverse)
    simp only [cutName] at h
    split at h
    · cases h
    · next c before hdrop =>
      split at h
      · cases h
      · next hne =>
        cases h
        have hc : c = '.' := by
          have hhead := List.head?_dropWhile_not (fun c : Char => decide (c ≠ '.')) name.reverse
          rw [hdrop] at hhead
          simpa using hhead
        rw [hdrop, hc] at hcut
        refine ⟨?_, by simpa using hne, fun hmem => ?_⟩
        · simpa using (congrArg List.reverse hcut).symm
        · simpa using List.all_eq_true.1 List.all_takeWhile '.' (List.mem_reverse.1 hmem)
  · rintro ⟨rfl, hstem, hext⟩
    have hrev : (stem ++ '.' :: ext).reverse = ext.reverse ++ '.' :: stem.reverse := by simp
    obtain ⟨htake, hdrop⟩ := Text.takeWhile_ne_append_cons (a := ext.reverse) (by simpa using hext) stem.reverse
    simp only [cutName, hrev, htake, hdrop, List.isEmpty_reverse, List.isEmpty_eq_false_iff.2 hstem,
      List.reverse_reverse, Bool.false_eq_true, if_false]

end Path

end PromptTags
