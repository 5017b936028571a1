import PromptTags.Files.Disk

/-! A text that was stored at a path is what is read there afterwards. Putting a node under a name where no
directory stands leaves every directory in its place with the names it had, so a path that led somewhere
before leads there still. -/
namespace PromptTags

namespace FileTree

variable {t u node : FileTree} {name : Text}

/-! ### Nodes -/

theorem at?_cons (entries : List (Text × FileTree)) (name : Text) (rest : Location) :
    (directory entries).at? (name :: rest) = (entries.lookup name).bind fun v => v.at? rest := by
  rw [at?]
  cases entries.lookup name <;> rfl

theorem at?_append (t : FileTree) (a b : Location) :
    t.at? (a ++ b) = (t.at? a).bind fun v => v.at? b := by
  induction a generalizing t with
  | nil => rfl
  | cons name a ih =>
    cases t with
    | file content => rfl
    | directory entries => simp only [List.cons_append, at?_cons, Option.bind_assoc, ih]

theorem lookup_cons_eq_ite (first : Text) (v : FileTree) (entries : List (Text × FileTree))
    (k : Text) :
    ((first, v) :: entries).lookup k = if k = first then some v else entries.lookup k := by
  rw [List.lookup_cons]
  by_cases hk : k = first
  · rw [beq_iff_eq.2 hk, if_pos hk]
  · rw [beq_false_of_ne hk, if_neg hk]

theorem lookup_putEntry (name : Text) (node : FileTree) (entries : List (Text × FileTree))
    (k : Text) :
    (putEntry name node entries).lookup k = if k = name then some node else entries.lookup k := by
  induction entries with
  | nil => exact lookup_cons_eq_ite name node [] k
  | cons e entries ih =>
    obtain ⟨first, v⟩ := e
    by_cases hname : name = first
    · subst hname
      rw [putEntry, if_pos rfl, lookup_cons_eq_ite, lookup_cons_eq_ite]
      split <;> rfl
    · rw [putEntry, if_neg hname, lookup_cons_eq_ite, lookup_cons_eq_ite, ih]
      by_cases hk : k = first
      · rw [if_pos hk, if_neg fun h => hname (h.symm.trans hk), if_pos hk]
      · rw [if_neg hk, if_neg hk]

theorem lookup_changeEntry (name : Text) (f : FileTree → FileTree)
    (entries : List (Text × FileTree)) (k : Text) :
    (entries.map fun e => if e.1 = name then (e.1, f e.2) else e).lookup k =
      (entries.lookup k).map fun v => if k = name then f v else v := by
  induction entries with
  | nil => rfl
  | cons e entries ih =>
    obtain ⟨first, v⟩ := e
    have hhead : (if first = name then (first, f v) else (first, v)) =
        (first, if first = name then f v else v) := by split <;> rfl
    rw [List.map_cons, hhead, lookup_cons_eq_ite, lookup_cons_eq_ite, ih]
    by_cases hk : k = first
    · rw [if_pos hk, if_pos hk, hk, Option.map_some]
    · rw [if_neg hk, if_neg hk]

/-- Below a directory only the node under the first name changes. -/
theorem at?_put_cons (entries : List (Text × FileTree)) (name : Text) {rest : Location}
    (hrest : rest ≠ []) (node : FileTree) (k : Text) (place : Location) :
    (put (directory entries) (name :: rest) node).at? (k :: place) =
      if k = name then (entries.lookup name).bind fun v => (v.put rest node).at? place
      else (directory entries).at? (k :: place) := by
  obtain ⟨next, rest, rfl⟩ := List.exists_cons_of_ne_nil hrest
  rw [put, at?_cons, lookup_changeEntry name fun v => v.put (next :: rest) node, Option.bind_map]
  split
  · next hk =>
    subst hk
    rfl
  · rw [at?_cons]
    rfl

/-- A node put into a directory is found there. -/
theorem at?_put {place : Location} {entries : List (Text × FileTree)}
    (h : t.at? place = some (directory entries)) (name : Text) (node : FileTree) :
    (t.put (place ++ [name]) node).at? (place ++ [name]) = some node := by
  induction place generalizing t with
  | nil =>
    obtain rfl : t = directory entries := Option.some.inj h
    simp [put, at?, lookup_putEntry]
  | cons first place ih =>
    cases t with
    | file content => cases h
    | directory siblings =>
      rw [at?_cons] at h
      obtain ⟨child, hchild, h⟩ := Option.bind_eq_some_iff.1 h
      rw [List.cons_append, at?_put_cons _ _ (by simp), if_pos rfl, hchild]
      exact ih h

/-! ### Ways through the directories -/

/-- Every directory of the one tree is a directory of the other, with its names. -/
def Keeps (t u : FileTree) : Prop :=
  ∀ place entries, t.at? place = some (directory entries) →
    ∃ entries', u.at? place = some (directory entries') ∧
      ∀ name, (entries.lookup name).isSome = true → (entries'.lookup name).isSome = true

/-- Where no directory stood, nothing is lost by putting a node there. -/
theorem keeps_put {place : Location} {entries : List (Text × FileTree)}
    (h : t.at? place = some (directory entries)) {name : Text}
    (hname : ∀ inner, t.at? (place ++ [name]) ≠ some (directory inner)) (node : FileTree) :
    t.Keeps (t.put (place ++ [name]) node) := by
  induction place generalizing t with
  | nil =>
    obtain rfl : t = directory entries := Option.some.inj h
    rintro (_ | ⟨k, rest⟩) found hfound
    · obtain rfl : entries = found := by simpa [at?] using hfound
      refine ⟨putEntry name node entries, rfl, fun k hk => ?_⟩
      rw [lookup_putEntry]
      split
      · rfl
      · exact hk
    · refine ⟨found, ?_, fun _ => id⟩
      by_cases hk : k = name
      · -- What stood there was no directory, so there was none below it.
        subst hk
        rw [at?_cons] at hfound
        obtain ⟨child, hchild, hfound⟩ := Option.bind_eq_some_iff.1 hfound
        cases child with
        | file content => cases rest <;> cases hfound
        | directory inner =>
          have hinner : (directory entries).at? ([] ++ [k]) = some (directory inner) := by
            simp [at?_cons, hchild, at?]
          exact absurd hinner (hname inner)
      · rw [List.nil_append, put, at?_cons, lookup_putEntry, if_neg hk, ← at?_cons]
        exact hfound
  | cons first place ih =>
    cases t with
    | file content => cases h
    | directory siblings =>
      rw [at?_cons] at h
      obtain ⟨child, hchild, h⟩ := Option.bind_eq_some_iff.1 h
      have hbelow := ih h fun inner hinner => hname inner (by
        rw [List.cons_append, at?_cons, hchild]
        exact hinner)
      rintro (_ | ⟨k, rest⟩) found hfound
      · obtain rfl : siblings = found := by simpa [at?] using hfound
        obtain ⟨next, rest, hrest⟩ := List.exists_cons_of_ne_nil (l := place ++ [name]) (by simp)
        rw [List.cons_append, hrest, put]
        refine ⟨_, rfl, fun k hk => ?_⟩
        rw [lookup_changeEntry first fun v => v.put (next :: rest) node, Option.isSome_map]
        exact hk
      · rw [List.cons_append, at?_put_cons _ _ (by simp)]
        split
        · next hk =>
          subst hk
          rw [at?_cons, hchild] at hfound
          rw [hchild]
          exact hbelow rest found hfound
        · exact ⟨found, hfound, fun _ => id⟩

/-- A way through the directories leads to the same place in a tree that keeps them. -/
theorem Keeps.follow (hk : t.Keeps u) {place : Location} {pieces : List Text} {q : Location}
    (h : t.follow place pieces = some q) : u.follow place pieces = some q := by
  induction pieces generalizing place with
  | nil => exact h
  | cons piece pieces ih =>
    rw [FileTree.follow] at h
    split at h
    · next entries hat =>
      obtain ⟨entries', hat', hnames⟩ := hk place entries hat
      rw [FileTree.follow, hat']
      dsimp only
      split at h
      · next hdot => rw [if_pos hdot, ih h]
      · next hdot =>
        rw [if_neg hdot]
        split at h
        · next hup => rw [if_pos hup, ih h]
        · next hup =>
          split at h
          · next hmem => rw [if_neg hup, if_pos (hnames piece hmem), ih h]
          · cases h
    · cases h

theorem follow_append (t : FileTree) (place : Location) (a b : List Text) :
    t.follow place (a ++ b) = (t.follow place a).bind fun q => t.follow q b := by
  induction a generalizing place with
  | nil => rfl
  | cons piece a ih =>
    rw [List.cons_append, FileTree.follow, FileTree.follow]
    split
    · simp only [ih]
      split
      · rfl
      · split
        · rfl
        · split <;> rfl
    · rfl

/-- Only a directory can be stayed in. -/
theorem follow_dot {place q : Location} (h : t.follow place [['.']] = some q) :
    place = q ∧ ∃ entries, t.at? q = some (directory entries) := by
  rw [FileTree.follow] at h
  split at h
  · next entries hat =>
    obtain rfl : place = q := by simpa [FileTree.follow] using h
    exact ⟨rfl, entries, hat⟩
  · cases h

/-- A name leads to the node under it. -/
theorem follow_name {place : Location} {name : Text} (hdot : name ≠ ['.']) (hup : name ≠ ['.', '.'])
    {entries : List (Text × FileTree)} (hat : t.at? place = some (directory entries))
    (hname : t.at? (place ++ [name]) = some node) :
    t.follow place [name] = some (place ++ [name]) := by
  rw [at?_append, hat, Option.bind_some, at?_cons] at hname
  obtain ⟨v, hv, -⟩ := Option.bind_eq_some_iff.1 hname
  simp [FileTree.follow, hat, hdot, hup, hv]

end FileTree

namespace Disk

theorem bind_apply {α β : Type} (x : StateM Disk α) (f : α → StateM Disk β) (d : Disk) :
    (x >>= f) d = f (x d).1 (x d).2 := rfl

/-- Where a new node goes: under a name in a directory that the path leads to. -/
theorem target_eq_ok {d : Disk} {p : Path} {place : Location} (h : d.target p = .ok place) :
    ∃ before name dir entries,
      (Text.split '/' p).filter (fun piece => !piece.isEmpty) = before ++ [name] ∧
      formFault? p = none ∧ d.tree.follow (d.start p) before = some dir ∧
      d.tree.at? dir = some (.directory entries) ∧ name ≠ ['.'] ∧ name ≠ ['.', '.'] ∧
      place = dir ++ [name] := by
  simp only [target] at h
  split at h
  · cases h
  · cases h
  · next name hform hlast =>
    obtain ⟨before, hnames⟩ := List.getLast?_eq_some_iff.1 hlast
    rw [hnames, List.dropLast_concat] at h
    split at h
    · cases h
    · next q hq =>
      rw [FileTree.follow_append] at hq
      obtain ⟨dir, hdir, hq⟩ := Option.bind_eq_some_iff.1 hq
      obtain ⟨rfl, entries, hat⟩ := FileTree.follow_dot hq
      split at h
      · cases h
      · next hdots =>
        split at h
        · cases h
        · obtain ⟨hdot, hup⟩ := not_or.1 hdots
          exact ⟨before, name, dir, entries, hnames, hform, hdir, hat, hdot, hup,
            (Except.ok.inj h).symm⟩

theorem locate_eq_ok_iff {d : Disk} {p : Path} {place : Location} :
    d.locate p = .ok place ↔
      formFault? p = none ∧ d.tree.follow (d.start p) (pieces p) = some place := by
  rw [locate]
  cases formFault? p with
  | some fault => simp
  | none => cases d.tree.follow (d.start p) (pieces p) <;> simp

/-- What is put where a path would make a new node is found at the path. -/
theorem locate_put {d : Disk} {p : Path} {place : Location} (hplace : d.target p = .ok place)
    (hfree : ∀ inner, d.tree.at? place ≠ some (.directory inner)) (hslash : p.getLast? ≠ some '/')
    (node : FileTree) :
    locate { d with tree := d.tree.put place node } p = .ok place ∧
      (d.tree.put place node).at? place = some node := by
  obtain ⟨before, name, dir, entries, hnames, hform, hdir, hat, hdot, hup, rfl⟩ :=
    target_eq_ok hplace
  have hkeeps := FileTree.keeps_put hat hfree node
  have hnode := FileTree.at?_put hat name node
  obtain ⟨entries', hat', -⟩ := hkeeps dir entries hat
  have hpieces : pieces p = before ++ [name] := by rw [pieces, if_neg hslash, hnames]
  have hway : (d.tree.put (dir ++ [name]) node).follow (d.start p) (pieces p) =
      some (dir ++ [name]) := by
    rw [hpieces, FileTree.follow_append, hkeeps.follow hdir]
    exact FileTree.follow_name hdot hup hat' hnode
  exact ⟨locate_eq_ok_iff.2 ⟨hform, hway⟩, hnode⟩

/-- What was stored at a path is read there. -/
theorem read_of_store {d d' : Disk} {p : Path} {t : Text} (h : d.store p (.text t) = .ok d') :
    d'.read p = .ok t := by
  rw [store] at h
  split at h
  · cases h
  · next place hplace =>
    split at h
    · cases h
    · next hfree =>
      split at h
      · cases h
      · next hslash =>
        obtain rfl := Except.ok.inj h
        obtain ⟨hlocate, hnode⟩ := locate_put hplace hfree hslash (.file (.text t))
        rw [read, hlocate]
        simp only [hnode]

/-- A directory that was made is there, and empty. -/
theorem find?_of_makeDirectory {d d' : Disk} {p : Path} (h : d.makeDirectory p = .ok d')
    (hslash : p.getLast? ≠ some '/') : d'.find? p = some (.directory []) := by
  rw [makeDirectory] at h
  split at h
  · cases h
  · next place hplace =>
    split at h
    · cases h
    · next habsent =>
      obtain rfl := Except.ok.inj h
      have hfree : ∀ inner, d.tree.at? place ≠ some (.directory inner) := by
        intro inner hinner
        simp [hinner] at habsent
      obtain ⟨hlocate, hnode⟩ := locate_put hplace hfree hslash (.directory [])
      rw [find?, hlocate]
      exact hnode

/-- A name that a file can have. -/
structure IsFileName (name : Text) : Prop where
  ne_nil : name ≠ []
  noSlash : '/' ∉ name
  ne_dot : name ≠ ['.']
  ne_up : name ≠ ['.', '.']
  short : isOverlong name = false

variable {d : Disk} {p : Path} {name : Text}

theorem getLast?_below (hname : IsFileName name) : (p ++ '/' :: name).getLast? ≠ some '/' := by
  have hlast := List.getLast?_eq_some_getLast hname.ne_nil
  rw [List.getLast?_append, List.getLast?_cons, hlast]
  intro h
  exact hname.noSlash (Option.some.inj h ▸ List.getLast_mem hname.ne_nil)

/-- The way to a name below a path is the way along the path and the name. -/
theorem names_below (hslash : p.getLast? ≠ some '/') (hname : IsFileName name) :
    (Text.split '/' (p ++ '/' :: name)).filter (fun piece => !piece.isEmpty) = pieces p ++ [name] := by
  have hloud : [name].filter (fun piece => !piece.isEmpty) = [name] := by simp [hname.ne_nil]
  rw [Text.split_append_sep, Text.split_of_notMem hname.noSlash, List.filter_append, hloud, pieces,
    if_neg hslash]

theorem target_below {place : Location} {entries : List (Text × FileTree)}
    (hp : d.locate p = .ok place) (hat : d.tree.at? place = some (.directory entries))
    (hslash : p.getLast? ≠ some '/') (hname : IsFileName name)
    (hform : formFault? (p ++ '/' :: name) = none) :
    d.target (p ++ '/' :: name) = .ok (place ++ [name]) := by
  obtain ⟨hpform, hway⟩ := locate_eq_ok_iff.1 hp
  have hstart : d.start (p ++ '/' :: name) = d.start p := by
    cases p with
    | nil => cases hpform
    | cons c p => rfl
  have hstay : d.tree.follow (d.start p) (pieces p ++ [['.']]) = some place := by
    rw [FileTree.follow_append, hway, Option.bind_some]
    simp [FileTree.follow, hat]
  simp only [target, hform, names_below hslash hname, hstart, List.getLast?_concat,
    List.dropLast_concat, hstay]
  rw [if_neg (not_or.2 ⟨hname.ne_dot, hname.ne_up⟩), if_neg (by simp [hname.short])]

theorem formFault?_eq_none_iff :
    formFault? p = none ↔
      p ≠ [] ∧ Path.hasNull p = false ∧ (Text.octets p).length ≤ maxPath := by
  rw [formFault?]
  split
  · next h => simp [List.isEmpty_iff.1 h]
  · next hempty =>
    split
    · next hnull => simp [hnull]
    · next hnull =>
      have hne : p ≠ [] := fun h => hempty (h ▸ rfl)
      split
      · next hlong => simp [hlong]
      · next hshort => simp [hne, hnull, Nat.not_lt.1 hshort]

/-- The front of a path that can lead somewhere can itself, if there is any. -/
theorem formFault?_front (hp : p ≠ []) {rest : Text} (h : formFault? (p ++ rest) = none) :
    formFault? p = none := by
  obtain ⟨-, hnull, hshort⟩ := formFault?_eq_none_iff.1 h
  refine formFault?_eq_none_iff.2 ⟨hp, ?_, ?_⟩
  · rw [Path.hasNull, List.any_append] at hnull
    exact (Bool.or_eq_false_iff.1 hnull).1
  · rw [Text.octets, List.flatMap_append, List.length_append] at hshort
    exact Nat.le_trans (Nat.le_add_right _ _) hshort

/-- Where a file is read under a name, there is something at the path in front of the name. -/
theorem isSome_find?_of_read_below {t : Text} (hp : p ≠ []) (hslash : p.getLast? ≠ some '/')
    (hname : IsFileName name) (h : d.read (p ++ '/' :: name) = .ok t) : (d.find? p).isSome = true := by
  rw [read] at h
  split at h
  · cases h
  · next place hplace =>
    obtain ⟨hform, hway⟩ := locate_eq_ok_iff.1 hplace
    have hstart : d.start (p ++ '/' :: name) = d.start p := by
      cases p with
      | nil => exact absurd rfl hp
      | cons c p => rfl
    have hend : (p ++ '/' :: name).getLast? ≠ some '/' := getLast?_below hname
    rw [pieces, if_neg hend, names_below hslash hname, hstart, FileTree.follow_append] at hway
    obtain ⟨dir, hdir, hlast⟩ := Option.bind_eq_some_iff.1 hway
    have hlocate : d.locate p = .ok dir := locate_eq_ok_iff.2 ⟨formFault?_front hp hform, hdir⟩
    rw [find?, hlocate]
    -- a name is only followed from a directory
    rw [FileTree.follow] at hlast
    split at hlast
    · next entries hat => exact Option.isSome_of_eq_some hat
    · cases hlast

/-- Anything can be stored under a name in a directory that the path in front of it leads to, unless a
directory has that name already or the whole path is of no use. -/
theorem exists_store_eq_ok {entries : List (Text × FileTree)}
    (hp : d.find? p = some (.directory entries)) (hslash : p.getLast? ≠ some '/')
    (hname : IsFileName name) (hfree : ∀ inner, entries.lookup name ≠ some (.directory inner))
    (hform : formFault? (p ++ '/' :: name) = none) (content : Content) :
    ∃ d', d.store (p ++ '/' :: name) content = .ok d' := by
  rw [find?] at hp
  split at hp
  · next place hlocate =>
    have hnode : ∀ inner, d.tree.at? (place ++ [name]) ≠ some (.directory inner) := by
      intro inner h
      rw [FileTree.at?_append, hp, Option.bind_some, FileTree.at?_cons] at h
      obtain ⟨v, hv, hinner⟩ := Option.bind_eq_some_iff.1 h
      exact hfree inner (hv.trans hinner)
    rw [store, target_below hlocate hp hslash hname hform]
    dsimp only
    split
    · next inner h => exact absurd h (hnode inner)
    · rw [if_neg (getLast?_below hname)]
      exact ⟨_, rfl⟩
  · cases hp

end Disk

end PromptTags
