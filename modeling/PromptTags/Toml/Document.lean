import PromptTags.Toml.Line

/-!
TOML documents. The entries before the first header belong to the document itself; every header
opens a table, to which the entries up to the next header belong. A table may be opened once, but
the tables on the way to it may still be opened later.
-/

namespace PromptTags.Toml

/-- A header with the entries that follow it. -/
structure Section where
  keys : List Text
  /-- Whether the header stands in double brackets. -/
  repeated : Bool
  lines : List (List Text × Value)
  deriving Repr, Inhabited

def Section.ofLines : List Line → List (List Text × Value) × List Section
  | [] => ([], [])
  | .entry keys value :: rest =>
    let (lines, sections) := ofLines rest
    ((keys, value) :: lines, sections)
  | .table keys :: rest =>
    let (lines, sections) := ofLines rest
    ([], ⟨keys, false, lines⟩ :: sections)
  | .tables keys :: rest =>
    let (lines, sections) := ofLines rest
    ([], ⟨keys, true, lines⟩ :: sections)

/-- Open the table of a section below its parent and fill it. -/
def Section.openIn (s : Section) (key : Text) (parent : Entries) : Option Entries :=
  let put (value : Value) := Entries.assign key value parent
  match Entries.get? key parent, s.repeated with
  | none, false => (Entries.addAll s.lines []).map fun own => put (.table .header own)
  | some (.table .implied inner), false =>
    (Entries.addAll s.lines inner).map fun own => put (.table .header own)
  | none, true => (Entries.addAll s.lines []).map fun own => put (.tables [own])
  | some (.tables items), true =>
    (Entries.addAll s.lines []).map fun own => put (.tables (items ++ [own]))
  | _, _ => none

def Section.addTo (s : Section) (entries : Entries) : Option Entries :=
  match s.keys.getLast? with
  | none => none
  | some key => Entries.changeAt (s.openIn key) s.keys.dropLast entries

def Entries.ofLines (lines : List Line) : Option Entries :=
  let (own, sections) := Section.ofLines lines
  (Entries.addAll own []).bind (sections.foldlM fun entries s => s.addTo entries)

/-- The entries of a document, given its text. A byte order mark at the front counts for nothing. -/
def Entries.ofText (t : Text) : Option Entries :=
  let body := match t with
    | '\uFEFF' :: rest => rest
    | _ => t
  (Line.ofText body).bind Entries.ofLines

end PromptTags.Toml
