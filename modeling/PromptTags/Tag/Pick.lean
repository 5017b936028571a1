import PromptTags.Random.Source
import PromptTags.Tag.Lookup

/-!
Reducing a node to one value. A scalar is its own value and a list gives one of its candidates. A
mapping draws one of its keys; if that leads to another mapping, a key of the inner mapping is drawn
as well before the choice is followed.
-/

namespace PromptTags

/-- What is drawn from a list is an element of it. -/
theorem Source.mem_of_choose {α : Type} {items : List α} {s s' : Source} {a : α}
    (h : s.choose items = (some a, s')) : a ∈ items := by
  simp only [Source.choose] at h
  split at h
  · cases h
  · exact List.mem_of_getElem? (Prod.mk.inj h).1

namespace Node

mutual

/-- The value a node gives on a random source, and the source that is left. -/
def pick (node : Node) (s : Source) : Except ResolutionError Text × Source :=
  match node with
  | scalar value => (.ok value, s)
  | list values =>
    match s.choose values with
    | (some value, s) => (.ok value, s)
    | (none, s) => (.error .emptyCollection, s)
  | map children => pickChild children s
termination_by sizeOf node

/-- The value a mapping gives: a drawn key is followed, through two levels at a time where the
drawn child is itself a mapping. -/
def pickChild (children : List (Text × Node)) (s : Source) :
    Except ResolutionError Text × Source :=
  match _hc : s.choose children with
  | (none, s) => (.error .emptyCollection, s)
  | (some (_, map inner), s) =>
    match s.choose inner with
    | (none, s) => (.error .emptyCollection, s)
    | (some (key, _), s) =>
      match _hl : lookup inner [key] with
      | .ok node => node.pick s
      | .error e => (.error e, s)
  | (some (key, _), s) =>
    match _hl : lookup children [key] with
    | .ok node => node.pick s
    | .error e => (.error e, s)
termination_by sizeOf children
decreasing_by
  · have h₁ := sizeOf_lt_of_mem (mem_of_lookup_singleton _hl)
    have h₂ := sizeOf_lt_of_mem (Source.mem_of_choose _hc)
    simp only [map.sizeOf_spec] at h₂
    omega
  · exact sizeOf_lt_of_mem (mem_of_lookup_singleton _hl)

end

/-- Follow a path and reduce the node at its end to a value. -/
def resolve (base : Keyed Node) (path : List Text) (s : Source) :
    Except ResolutionError Text × Source :=
  match lookup base path with
  | .ok node => node.pick s
  | .error e => (.error e, s)

end Node

end PromptTags
