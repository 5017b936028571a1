import PromptTags.Text.Basic

/-!
Paths as texts. A path is read as a list of components between slashes: repeated slashes, trailing
slashes and dots count for nothing, except that a leading slash makes the path absolute and a
leading dot stands for the directory the path is taken from. Nothing is resolved: `..` is a
component.
-/

namespace PromptTags

/-- A path as it is written. -/
abbrev Path := Text

namespace Path

inductive Component where
  /-- The leading slash. -/
  | root
  /-- The leading dot. -/
  | here
  /-- Two dots. -/
  | up
  | name (text : Text)
  deriving DecidableEq, Repr

def isAbsolute (p : Path) : Bool := p.head? = some '/'

/-- Whether a piece between slashes counts for nothing. -/
def isSilent (piece : Text) : Bool := piece.isEmpty || piece = ['.']

def hasNull (p : Path) : Bool := p.any fun c => c = '\x00'

/-- The leading slash or dot of a path, and what follows it. -/
def cutStart (p : Path) : Text × Text :=
  match p with
  | '/' :: rest => (['/'], rest)
  | ['.'] => (['.'], [])
  | '.' :: '/' :: rest => (['.'], '/' :: rest)
  | _ => ([], p)

def startComponents (start : Text) : List Component :=
  match start with
  | [] => []
  | '/' :: _ => [.root]
  | _ => [.here]

def pieceComponent (piece : Text) : Component :=
  if piece = ['.', '.'] then .up else .name piece

def components (p : Path) : List Component :=
  let (start, body) := cutStart p
  startComponents start ++
    (((Text.split '/' body).filter fun piece => !isSilent piece).map pieceComponent)

/-- The path without its last component, cut off before the slashes in front of it. The root and the
empty path have no parent. -/
def parent? (p : Path) : Option Path :=
  let (start, body) := cutStart p
  match (Text.split '/' body).reverse.dropWhile isSilent with
  | [] => if start = ['.'] then some [] else none
  | _ :: before => some (start ++ Text.join ['/'] (before.dropWhile isSilent).reverse)

theorem cutStart_append (p : Path) : (cutStart p).1 ++ (cutStart p).2 = p := by
  unfold cutStart
  split <;> simp

/-- A parent is written with fewer characters. -/
theorem length_lt_of_parent? {p q : Path} (h : parent? p = some q) : q.length < p.length := by
  have hp := congrArg List.length (cutStart_append p)
  have hb := Text.join_split '/' (cutStart p).2
  simp only [parent?] at h
  split at h
  · split at h
    · next hs =>
      cases h
      rw [hs] at hp
      simp at hp
      simp only [List.length_nil]; omega
    · cases h
  · next piece before hd =>
    cases h
    have hloud : piece ≠ [] := by
      have := List.head?_dropWhile_not isSilent (Text.split '/' (cutStart p).2).reverse
      rw [hd] at this
      simp [isSilent] at this
      exact this.1
    have hsplit := List.takeWhile_append_dropWhile (p := isSilent)
      (l := (Text.split '/' (cutStart p).2).reverse)
    rw [hd] at hsplit
    have hsplit := congrArg List.reverse hsplit
    rw [List.reverse_reverse] at hsplit
    simp only [List.reverse_append, List.reverse_cons, List.append_assoc] at hsplit
    have hbefore := List.takeWhile_append_dropWhile (p := isSilent) (l := before)
    have hbefore := congrArg List.reverse hbefore
    rw [List.reverse_append] at hbefore
    rw [← hbefore, List.append_assoc] at hsplit
    have h1 := Text.length_join_le ['/'] (before.dropWhile isSilent).reverse
      ((before.takeWhile isSilent).reverse)
    have h2 := Text.length_join_append_cons '/' ((before.dropWhile isSilent).reverse ++
      (before.takeWhile isSilent).reverse) piece
      ((List.takeWhile isSilent (Text.split '/' (cutStart p).2).reverse).reverse) hloud
    rw [← hsplit] at hb
    simp only [List.append_assoc, List.singleton_append] at h2 hb
    rw [hb] at h2
    simp only [List.length_append] at hp h1 ⊢
    omega

/-- A path, its parent, the parent of that, and so on. -/
def ancestors (p : Path) : List Path :=
  p :: match _h : parent? p with
    | none => []
    | some q => ancestors q
termination_by p.length
decreasing_by exact length_lt_of_parent? _h

/-- The last component, if it is a name. -/
def fileName? (p : Path) : Option Text :=
  match (components p).getLast? with
  | some (.name text) => some text
  | _ => none

/-- A file name cut at its last dot into stem and extension. A dot at the start cuts nothing. -/
def cutName (name : Text) : Text × Option Text :=
  let ending := (name.reverse.takeWhile (· ≠ '.')).reverse
  match name.reverse.dropWhile (· ≠ '.') with
  | [] => (name, none)
  | _ :: stem => if stem.isEmpty then (name, none) else (stem.reverse, some ending)

def fileStem? (p : Path) : Option Text := (fileName? p).map fun name => (cutName name).1

def extension? (p : Path) : Option Text := (fileName? p).bind fun name => (cutName name).2

/-- A path taken from the directory `dir`: an absolute path stands for itself, and any other is
written behind a slash. -/
def join (dir p : Path) : Path :=
  if isAbsolute p then p
  else if dir.isEmpty || dir.getLast? = some '/' then dir ++ p
  else dir ++ '/' :: p

def ofNames (names : List Text) : Path := Text.join ['/'] names

end Path

end PromptTags
