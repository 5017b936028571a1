import PromptTags.Toml.Value

/-!
Entries of tables, and what a document may add to them: a key may be given once, a table between
braces or with a header of its own is closed to dotted keys from elsewhere, and of repeated tables
the last one is meant.
-/

namespace PromptTags.Toml

def changeLast {α : Type} (f : α → Option α) : List α → Option (List α)
  | [] => none
  | [a] => (f a).map ([·])
  | a :: b :: rest => (changeLast f (b :: rest)).map (a :: ·)

namespace Entries

def get? (key : Text) (entries : Entries) : Option Value := entries.lookup key

/-- The entries with the value under a key replaced, or added behind the others. -/
def assign (key : Text) (value : Value) : Entries → Entries
  | [] => [(key, value)]
  | (k, v) :: rest => if key = k then (k, value) :: rest else (k, v) :: assign key value rest

/-- Add a value under a dotted key. The tables on the way are made if they are missing; one that has
a header or braces of its own is closed, and one that was not made by a dotted key takes no value
directly. -/
def addAt (value : Value) : List Text → Entries → Option Entries
  | [], _ => none
  | [key], entries => if (get? key entries).isSome then none else some (assign key value entries)
  | key :: next :: rest, entries =>
    let descend (inner : Entries) (origin : Origin) : Option Entries :=
      if rest.isEmpty && origin ≠ .dotted then none else addAt value (next :: rest) inner
    match get? key entries with
    | none => (descend [] .dotted).map fun inner => assign key (.table .dotted inner) entries
    | some (.table origin inner) =>
      if origin = .inline ∨ origin = .header then none
      else (descend inner origin).map fun inner => assign key (.table origin inner) entries
    | some (.tables items) =>
      (changeLast (fun inner => descend inner .header) items).map fun items =>
        assign key (.tables items) entries
    | some _ => none

def addAll (lines : List (List Text × Value)) (entries : Entries) : Option Entries :=
  lines.foldlM (fun entries line => addAt line.2 line.1 entries) entries

/-- Change a table, given the path to it. Tables that are missing on the way are made; of repeated
tables the last one is meant. -/
def changeAt (f : Entries → Option Entries) : List Text → Entries → Option Entries
  | [], entries => f entries
  | key :: rest, entries =>
    match get? key entries with
    | none => (changeAt f rest []).map fun inner => assign key (.table .implied inner) entries
    | some (.table origin inner) =>
      if origin = .inline then none
      else (changeAt f rest inner).map fun inner => assign key (.table origin inner) entries
    | some (.tables items) =>
      (changeLast (changeAt f rest) items).map fun items => assign key (.tables items) entries
    | some _ => none

end Entries

end PromptTags.Toml
